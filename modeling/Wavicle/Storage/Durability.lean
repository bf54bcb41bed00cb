import Wavicle.Storage.Compaction

/-! # Acknowledged writes are kept

The invariant of careful runs: a call whose atom is in the log, on the frontier or among the collected atoms is
superseded there only by a call that was not over when it began.

* `Inv`: the invariant, in four parts (`CallsOk`, `LogOk`, `IndexOk`, `CollectedOk`), and that no line is torn.
* `Inv.step`: a careful step keeps it.
* `durable_of_careful`: every acknowledged write is kept in a careful run.
* `compaction_loses_write`: a run that is not careful, and loses one. -/

namespace Wavicle.Storage

open Lib Wavicle.Core List

theorem Stage.written_of_shown {s : Stage} (h : s.shown = true) : s.written = true := by
  cases s <;> first | rfl | cases h

namespace LoggedCrystal

variable {ι H : Type} [DecidableEq H] [Hashing H] {codec : LogCodec ι H} {x : LoggedCrystal ι H}

/-! ### Calls that advance -/

/-- The atom is that of a call at a stage in `Q`. -/
def Has (calls : List (AppendCall ι H)) (Q : Stage → Prop) (a : CausalAtom ι H) : Prop :=
  ∃ call ∈ calls, call.atom = a ∧ Q call.stage

abbrev Known (calls : List (AppendCall ι H)) : CausalAtom ι H → Prop := Has calls fun _ => True

/-- `current` has, for the path of `call`, its atom or that of a call that was not over when it
began. -/
def Keeps (calls : List (AppendCall ι H)) (current : Str → Option (CausalAtom ι H))
    (call : AppendCall ι H) : Prop :=
  ∃ a, current call.atom.path = some a ∧ Known calls a ∧ a ∉ call.settled

variable {calls calls' : List (AppendCall ι H)} {i : ℕ} {stage : Stage} {old : AppendCall ι H}

variable {call : AppendCall ι H} {Q : Stage → Prop} {a : CausalAtom ι H}

section

omit [DecidableEq H] [Hashing H]

theorem mem_advanced (hi : calls[i]? = some old) (h : call ∈ advanced calls i stage) :
    call = { old with stage } ∨ call ∈ calls := by
  obtain ⟨j, hj⟩ := mem_iff_getElem?.1 h
  rw [advanced, List.getElem?_modify] at hj
  split_ifs at hj with hij
  · subst hij
    rw [hi] at hj
    exact Or.inl (Option.some.inj hj).symm
  · rw [Option.map_eq_map, Option.map_id'] at hj
    exact Or.inr (mem_iff_getElem?.2 ⟨j, hj⟩)

theorem Has.advanced (hi : calls[i]? = some old) (hQ : Q old.stage → Q stage) (h : Has calls Q a) :
    Has (advanced calls i stage) Q a := by
  obtain ⟨call, hcall, heq, hcallQ⟩ := h
  obtain ⟨j, hj⟩ := mem_iff_getElem?.1 hcall
  by_cases hij : i = j
  · subst hij
    obtain rfl := Option.some.inj (hi.symm.trans hj)
    refine ⟨{ old with stage }, mem_iff_getElem?.2 ⟨i, ?_⟩, heq, hQ hcallQ⟩
    simp [LoggedCrystal.advanced, hi]
  · refine ⟨call, mem_iff_getElem?.2 ⟨j, ?_⟩, heq, hcallQ⟩
    simp [LoggedCrystal.advanced, hij, hj]

theorem map_hash_advanced (calls : List (AppendCall ι H)) (i : ℕ) (stage : Stage) :
    (advanced calls i stage).map (·.atom.hash) = calls.map (·.atom.hash) := by
  refine ext_getElem? fun j => ?_
  simp only [advanced, List.getElem?_map, List.getElem?_modify]
  cases calls[j]? with
  | none => rfl
  | some call =>
    simp only [Option.map_eq_map, Option.map_some]
    split_ifs <;> rfl

theorem Has.imp {Q' : Stage → Prop} (h : ∀ s, Q s → Q' s) :
    Has calls Q a → Has calls Q' a := fun ⟨call, hcall, heq, hQ⟩ => ⟨call, hcall, heq, h _ hQ⟩

theorem Keeps.mono {current : Str → Option (CausalAtom ι H)}
    (h : ∀ a, Known calls a → Known calls' a) : Keeps calls current call → Keeps calls' current call :=
  fun ⟨a, ha, hknown, hnot⟩ => ⟨a, ha, h a hknown, hnot⟩

end

/-! ### What holds in a careful run -/

/-- The calls: each has its own hash, can be read from the log, and has its past behind it. -/
structure CallsOk (codec : LogCodec ι H) (calls : List (AppendCall ι H)) : Prop where
  hashes : (calls.map (·.atom.hash)).Nodup
  readable : ∀ call ∈ calls, codec.Readable call.atom
  settled : ∀ call ∈ calls, ∀ a ∈ call.settled, Has calls (fun s => s.ended = true) a

/-- The log, whose atoms are `atoms`: they are those of calls, and a call that has written its atom is
kept by a recovery. -/
structure LogOk (codec : LogCodec ι H) (atoms : List (CausalAtom ι H)) (lines : List Str)
    (calls : List (AppendCall ι H)) : Prop where
  written : codec.Written atoms lines
  owned : ∀ a ∈ atoms, Has calls (· ≠ .begun) a
  nodup : (atoms.map (·.hash)).Nodup
  lined : ∀ call ∈ calls, call.stage.written = true → ∃ data, codec.line call.atom = .ok data
  kept : ∀ call ∈ calls, call.stage.written = true →
    Keeps calls (CausalCrystal.recover atoms).getCurrent call

/-- The frontier has the hashes of calls that have written their atoms. All but those that are on their
way to the cache are found there, and a call that has been there has been followed only by calls that
were not over when it began. -/
structure IndexOk (codec : LogCodec ι H) (c : CausalCrystal ι H) (calls : List (AppendCall ι H)) :
    Prop where
  frontier : ∀ p hash, c.frontier.lookup p = some hash → ∃ a, a.hash = hash ∧ a.path = p ∧
    (∃ data, codec.line a = .ok data) ∧
    Has calls (fun s => s ≠ .begun ∧ (s ≠ .indexed → c.atomCache.lookup hash = some a)) a
  shown : ∀ call ∈ calls, call.stage.shown = true → ∃ a,
    c.frontier.lookup call.atom.path = some a.hash ∧ Known calls a ∧ a.path = call.atom.path ∧
      a ∉ call.settled

/-- While a compaction is between its first two steps, no call is between the log and the cache, and
what was collected would do as a log. -/
structure CollectedOk (codec : LogCodec ι H) (alive : List (CausalAtom ι H))
    (calls : List (AppendCall ι H)) : Prop where
  quiet : ∀ call ∈ calls, call.stage ≠ .logged ∧ call.stage ≠ .indexed
  owned : ∀ a ∈ alive, Has calls (· ≠ .begun) a ∧ ∃ data, codec.line a = .ok data
  nodup : (alive.map (·.hash)).Nodup
  kept : ∀ call ∈ calls, call.stage.shown = true →
    Keeps calls (CausalCrystal.recover alive).getCurrent call

/-- **The invariant**: the calls, the log, the index and what a compaction has collected are in order. -/
structure Inv (codec : LogCodec ι H) (atoms : List (CausalAtom ι H)) (x : LoggedCrystal ι H) :
    Prop where
  calls : CallsOk codec x.calls
  log : LogOk codec atoms x.lines x.calls
  index : IndexOk codec x.crystal x.calls
  collected : ∀ alive, x.compaction = .collected alive → CollectedOk codec alive x.calls
  whole : x.torn = []

variable {atoms : List (CausalAtom ι H)} {lines : List Str} {c c' : CausalCrystal ι H}

section

omit [Hashing H]

theorem inv_init : Inv codec [] (init : LoggedCrystal ι H) where
  calls := ⟨nodup_nil, fun _ h => absurd h not_mem_nil, fun _ h => absurd h not_mem_nil⟩
  log := ⟨.nil, fun _ h => absurd h not_mem_nil, nodup_nil,
    fun _ h => absurd h not_mem_nil, fun _ h => absurd h not_mem_nil⟩
  index := ⟨fun p hash h => by simp [init] at h, fun _ h => absurd h not_mem_nil⟩
  collected alive h := by simp [init] at h
  whole := rfl

theorem LogOk.readAll (hlog : LogOk codec atoms lines calls) (hcalls : CallsOk codec calls) :
    codec.readAll lines = atoms := by
  refine hlog.written.readAll fun a ha => ?_
  obtain ⟨call, hcall, rfl, -⟩ := hlog.owned a ha
  exact hcalls.readable call hcall

theorem recovered_of_whole (codec : LogCodec ι H) (hwhole : x.torn = []) :
    x.recovered codec = .recover (codec.readAll x.lines) := by
  rw [recovered, scanned, if_pos hwhole]

end

omit [Hashing H] in
theorem Inv.recovered_eq (hx : Inv codec atoms x) : x.recovered codec = .recover atoms := by
  rw [recovered_of_whole codec hx.whole, hx.log.readAll hx.calls]

omit [Hashing H] in
theorem Inv.durable (hx : Inv codec atoms x) : x.Durable codec := by
  intro call hcall hreturned
  obtain ⟨a, ha, ⟨later, hlater, rfl, -⟩, hnot⟩ := hx.log.kept call hcall (by rw [hreturned]; rfl)
  exact ⟨later, hlater, by rw [hx.recovered_eq, ha], hnot⟩

omit [DecidableEq H] [Hashing H] in
theorem CallsOk.unique (h : CallsOk codec calls) {call' : AppendCall ι H} (hcall : call ∈ calls)
    (hcall' : call' ∈ calls) (heq : call.atom.hash = call'.atom.hash) : call = call' :=
  inj_on_of_nodup_map h.hashes hcall hcall' heq

omit [DecidableEq H] [Hashing H] in
theorem CallsOk.not_settled (h : CallsOk codec calls) {call' : AppendCall ι H}
    (hcall : call ∈ calls) (hcall' : call' ∈ calls) (hstage : call.stage.ended = false) :
    call.atom ∉ call'.settled := by
  intro hmem
  obtain ⟨c, hc, heq, hended⟩ := h.settled call' hcall' _ hmem
  rw [h.unique hc hcall (congrArg _ heq), hstage] at hended
  cases hended

/-! ### A call goes on -/

omit [DecidableEq H] [Hashing H] in
theorem CallsOk.advanced (h : CallsOk codec calls) (hi : calls[i]? = some old)
    (hold : old.stage.ended = false) : CallsOk codec (advanced calls i stage) where
  hashes := by
    rw [map_hash_advanced]
    exact h.hashes
  readable call hcall := by
    rcases mem_advanced hi hcall with rfl | hcall
    · exact h.readable old (mem_of_getElem? hi)
    · exact h.readable call hcall
  settled call hcall a ha := by
    have hpast : Has calls (fun s => s.ended = true) a := by
      rcases mem_advanced hi hcall with rfl | hcall
      · exact h.settled old (mem_of_getElem? hi) a ha
      · exact h.settled call hcall a ha
    exact hpast.advanced hi fun hended => by rw [hold] at hended; cases hended

omit [DecidableEq H] [Hashing H] in
theorem known_advanced (hi : calls[i]? = some old) (h : Known calls a) :
    Known (advanced calls i stage) a := h.advanced hi fun _ => trivial

section

omit [Hashing H]

theorem LogOk.advanced (h : LogOk codec atoms lines calls) (hi : calls[i]? = some old)
    (hne : stage ≠ .begun) (hwritten : stage.written = true → old.stage.written = true) :
    LogOk codec atoms lines (advanced calls i stage) where
  written := h.written
  owned a ha := Has.advanced (Q := (· ≠ .begun)) hi (fun _ => hne) (h.owned a ha)
  nodup := h.nodup
  lined call hcall hstage := by
    rcases mem_advanced hi hcall with rfl | hcall
    · exact h.lined old (mem_of_getElem? hi) (hwritten hstage)
    · exact h.lined call hcall hstage
  kept call hcall hstage := by
    refine Keeps.mono (fun _ => known_advanced hi) ?_
    rcases mem_advanced hi hcall with rfl | hcall
    · exact h.kept old (mem_of_getElem? hi) (hwritten hstage)
    · exact h.kept call hcall hstage

theorem IndexOk.advanced (h : IndexOk codec c calls) (hi : calls[i]? = some old)
    (hne : stage ≠ .begun) (hold : old.stage = .begun ∨ old.stage = .stored)
    (hshown : stage.shown = true → old.stage.shown = true) :
    IndexOk codec c (advanced calls i stage) where
  frontier p hash hp := by
    obtain ⟨a, hhash, hpath, hline, hhas⟩ := h.frontier p hash hp
    refine ⟨a, hhash, hpath, hline, hhas.advanced hi fun hQ => ⟨hne, fun _ => hQ.2 ?_⟩⟩
    rcases hold with hold | hold
    · exact absurd hold hQ.1
    · rw [hold]
      decide
  shown call hcall hstage := by
    have hold : ∃ a, c.frontier.lookup call.atom.path = some a.hash ∧ Known calls a ∧
        a.path = call.atom.path ∧ a ∉ call.settled := by
      rcases mem_advanced hi hcall with rfl | hcall
      · exact h.shown old (mem_of_getElem? hi) (hshown hstage)
      · exact h.shown call hcall hstage
    obtain ⟨a, ha, hknown, hrest⟩ := hold
    exact ⟨a, ha, known_advanced hi hknown, hrest⟩

theorem IndexOk.sheds (h : IndexOk codec c calls) (hsheds : c.Sheds c') :
    IndexOk codec c' calls where
  frontier p hash hp := by
    rw [hsheds.frontier] at hp
    have hcache : c'.atomCache.lookup hash = c.atomCache.lookup hash := by
      rcases hsheds.cached hash with heq | ⟨-, hoff⟩
      · exact heq
      · rw [(c.onFrontier_iff hash).2 ⟨p, hp⟩] at hoff
        cases hoff
    rw [hcache]
    exact h.frontier p hash hp
  shown call hcall hstage := by
    rw [hsheds.frontier]
    exact h.shown call hcall hstage

theorem CollectedOk.advanced {alive : List (CausalAtom ι H)} (h : CollectedOk codec alive calls)
    (hi : calls[i]? = some old) (hne : stage ≠ .begun) (hquiet : stage ≠ .logged ∧ stage ≠ .indexed)
    (hshown : stage.shown = true → old.stage.shown = true) :
    CollectedOk codec alive (advanced calls i stage) where
  quiet call hcall := by
    rcases mem_advanced hi hcall with rfl | hcall
    · exact hquiet
    · exact h.quiet call hcall
  owned a ha := (h.owned a ha).imp_left (Has.advanced (Q := (· ≠ .begun)) hi fun _ => hne)
  nodup := h.nodup
  kept call hcall hstage := by
    refine Keeps.mono (fun _ => known_advanced hi) ?_
    rcases mem_advanced hi hcall with rfl | hcall
    · exact h.kept old (mem_of_getElem? hi) (hshown hstage)
    · exact h.kept call hcall hstage

end

/-! ### The steps of a call -/

omit [DecidableEq H] [Hashing H] in
theorem mem_concat {new : AppendCall ι H} (h : call ∈ calls ++ [new]) : call = new ∨ call ∈ calls := by
  rcases mem_append.1 h with h | h
  · exact Or.inr h
  · exact Or.inl (mem_singleton.1 h)

omit [DecidableEq H] [Hashing H] in
theorem Has.concat (new : AppendCall ι H) (h : Has calls Q a) : Has (calls ++ [new]) Q a := by
  obtain ⟨call, hcall, hrest⟩ := h
  exact ⟨call, mem_append_left _ hcall, hrest⟩

theorem Inv.step_begin (hx : Inv codec atoms x) {expr : Expr ι H} {path : Str} {causalPast : List H}
    {expiresAt now : Time} {draw : Draw H}
    (hcare : x.Careful codec (.begin expr path causalPast expiresAt now draw)) :
    Inv codec atoms (x.step codec (.begin expr path causalPast expiresAt now draw)) := by
  obtain ⟨hfresh, hread⟩ := hcare
  -- the new call is at its first stage, at which nothing is asked of it
  refine ⟨⟨?_, ?_, ?_⟩, ⟨hx.log.written, ?_, hx.log.nodup, ?_, ?_⟩, ⟨?_, ?_⟩, ?_, hx.whole⟩
  · change ((x.calls ++ [_]).map _).Nodup
    rw [map_append, map_singleton, ← concat_eq_append]
    refine hx.calls.hashes.concat fun hmem => ?_
    obtain ⟨call, hcall, heq⟩ := mem_map.1 hmem
    exact hfresh call hcall heq
  · intro call hcall
    rcases mem_concat hcall with rfl | hcall
    · exact hread
    · exact hx.calls.readable call hcall
  · intro call hcall a ha
    rcases mem_concat hcall with rfl | hcall
    · obtain ⟨call, hended, rfl⟩ := mem_map.1 ha
      obtain ⟨hcall, hended⟩ := mem_filter.1 hended
      exact Has.concat _ ⟨call, hcall, rfl, hended⟩
    · exact (hx.calls.settled call hcall a ha).concat _
  · exact fun a ha => (hx.log.owned a ha).concat _
  · intro call hcall hstage
    rcases mem_concat hcall with rfl | hcall
    · cases hstage
    · exact hx.log.lined call hcall hstage
  · intro call hcall hstage
    rcases mem_concat hcall with rfl | hcall
    · cases hstage
    · exact (hx.log.kept call hcall hstage).mono fun _ h => h.concat _
  · intro p hash hp
    obtain ⟨a, hhash, hpath, hline, hhas⟩ := hx.index.frontier p hash hp
    exact ⟨a, hhash, hpath, hline, hhas.concat _⟩
  · intro call hcall hstage
    rcases mem_concat hcall with rfl | hcall
    · cases hstage
    · obtain ⟨a, ha, hknown, hrest⟩ := hx.index.shown call hcall hstage
      exact ⟨a, ha, hknown.concat _, hrest⟩
  · intro alive halive
    have hold := hx.collected alive halive
    refine ⟨fun call hcall => ?_, fun a ha => (hold.owned a ha).imp_left (·.concat _), hold.nodup,
      fun call hcall hstage => ?_⟩
    · rcases mem_concat hcall with rfl | hcall
      · exact (by decide : Stage.begun ≠ .logged ∧ Stage.begun ≠ .indexed)
      · exact hold.quiet call hcall
    · rcases mem_concat hcall with rfl | hcall
      · cases hstage
      · exact (hold.kept call hcall hstage).mono fun _ h => h.concat _

omit [Hashing H] in
theorem getCurrent_recover_concat {atom : CausalAtom ι H}
    (hnd : ((atoms ++ [atom]).map (·.hash)).Nodup) (p : Str) :
    (CausalCrystal.recover (atoms ++ [atom])).getCurrent p =
      if p = atom.path then some atom else (CausalCrystal.recover atoms).getCurrent p := by
  have hnd' : (atoms.map (·.hash)).Nodup := by
    rw [map_append] at hnd
    exact (nodup_append.1 hnd).1
  rw [CausalCrystal.getCurrent_recover hnd, CausalCrystal.getCurrent_recover hnd',
    reverse_concat, List.find?_cons]
  by_cases hp : p = atom.path
  · simp [hp]
  · simp [hp, Ne.symm hp]

section

omit [DecidableEq H] [Hashing H]

theorem mem_advanced_self (hi : calls[i]? = some old) :
    ({ old with stage } : AppendCall ι H) ∈ advanced calls i stage :=
  mem_iff_getElem?.2 ⟨i, by simp [advanced, hi]⟩

theorem mem_advanced_of_ne (hi : calls[i]? = some old) (h : call ∈ calls) (hne : call ≠ old) :
    call ∈ advanced calls i stage := by
  obtain ⟨j, hj⟩ := mem_iff_getElem?.1 h
  have hij : i ≠ j := by
    rintro rfl
    exact hne (Option.some.inj (hj.symm.trans hi))
  exact mem_iff_getElem?.2 ⟨j, by simp [advanced, hij, hj]⟩

theorem known_of_mem (h : call ∈ calls) : Known calls call.atom :=
  ⟨call, h, rfl, trivial⟩

end

section

omit [Hashing H]

theorem LogOk.log (h : LogOk codec atoms lines calls) (hcalls : CallsOk codec calls)
    (hi : calls[i]? = some old) (hold : old.stage = .begun) {data : Str}
    (hline : codec.line old.atom = .ok data) : LogOk codec (atoms ++ [old.atom]) (lines ++ [data])
      (LoggedCrystal.advanced calls i .logged) := by
  have hmem := mem_of_getElem? hi
  have hnew : old.atom.hash ∉ atoms.map (·.hash) := by
    intro hin
    obtain ⟨a, ha, heq⟩ := mem_map.1 hin
    obtain ⟨call, hcall, rfl, hstage⟩ := h.owned a ha
    exact hstage (hcalls.unique hcall hmem heq ▸ hold)
  have hnd : ((atoms ++ [old.atom]).map (·.hash)).Nodup := by
    rw [map_append, map_singleton, ← concat_eq_append]
    exact h.nodup.concat hnew
  -- the call is not over, so that it may follow any other
  have hfollows : ∀ call ∈ calls, old.atom ∉ call.settled := fun call hcall =>
    hcalls.not_settled hmem hcall (by rw [hold]; rfl)
  refine ⟨rel_append h.written (.cons hline .nil), ?_, hnd, ?_, ?_⟩
  · intro a ha
    rcases mem_append.1 ha with ha | ha
    · exact Has.advanced (Q := (· ≠ .begun)) hi (fun _ => by decide) (h.owned a ha)
    · obtain rfl := mem_singleton.1 ha
      exact ⟨_, mem_advanced_self hi, rfl, show Stage.logged ≠ .begun by decide⟩
  · intro call hcall hstage
    rcases mem_advanced hi hcall with rfl | hcall
    · exact ⟨data, hline⟩
    · exact h.lined call hcall hstage
  · intro call hcall hstage
    unfold Keeps
    rw [getCurrent_recover_concat hnd]
    split_ifs with hpath
    · refine ⟨old.atom, rfl, known_advanced hi (known_of_mem hmem), ?_⟩
      rcases mem_advanced hi hcall with rfl | hcall
      · exact hfollows old hmem
      · exact hfollows call hcall
    · rcases mem_advanced hi hcall with rfl | hcall
      · exact absurd rfl hpath
      · exact (h.kept call hcall hstage).mono fun _ => known_advanced hi

theorem IndexOk.index (h : IndexOk codec c calls) (hcalls : CallsOk codec calls)
    (hi : calls[i]? = some old) (hold : old.stage = .logged) {data : Str}
    (hline : codec.line old.atom = .ok data) :
    IndexOk codec { c with frontier := c.frontier.insert old.atom.path old.atom.hash }
      (LoggedCrystal.advanced calls i .indexed) := by
  have hmem := mem_of_getElem? hi
  have hfollows : ∀ call ∈ calls, old.atom ∉ call.settled := fun call hcall =>
    hcalls.not_settled hmem hcall (by rw [hold]; rfl)
  refine ⟨fun p hash hp => ?_, fun call hcall hstage => ?_⟩
  · rw [GoMap.lookup_insert] at hp
    split_ifs at hp with hpath
    · obtain rfl := Option.some.inj hp
      exact ⟨old.atom, rfl, hpath.symm, ⟨data, hline⟩, _, mem_advanced_self hi, rfl,
        show Stage.indexed ≠ .begun by decide, fun hne => absurd rfl hne⟩
    · obtain ⟨a, hhash, hpath, hline, hhas⟩ := h.frontier p hash hp
      refine ⟨a, hhash, hpath, hline, hhas.advanced hi fun hQ => ⟨by decide, fun hne => absurd rfl hne⟩⟩
  · dsimp only
    rw [GoMap.lookup_insert]
    split_ifs with hpath
    · refine ⟨old.atom, rfl, known_advanced hi (known_of_mem hmem), hpath.symm, ?_⟩
      rcases mem_advanced hi hcall with rfl | hcall
      · exact hfollows old hmem
      · exact hfollows call hcall
    · rcases mem_advanced hi hcall with rfl | hcall
      · exact absurd rfl hpath
      · obtain ⟨a, ha, hknown, hrest⟩ := h.shown call hcall hstage
        exact ⟨a, ha, known_advanced hi hknown, hrest⟩

theorem IndexOk.store (h : IndexOk codec c calls) (hcalls : CallsOk codec calls)
    (hi : calls[i]? = some old) (hold : old.stage = .indexed) :
    IndexOk codec { c with
        atomCache := c.atomCache.insert old.atom.hash old.atom
        atomCount := c.atomCount + 1 } (LoggedCrystal.advanced calls i .stored) := by
  have hmem := mem_of_getElem? hi
  refine ⟨fun p hash hp => ?_, fun call hcall hstage => ?_⟩
  · obtain ⟨a, rfl, hpath, hline, call, hcall, rfl, hne, hcache⟩ := h.frontier p hash hp
    refine ⟨call.atom, rfl, hpath, hline, ?_⟩
    rw [GoMap.lookup_insert]
    by_cases heq : call = old
    · subst heq
      exact ⟨_, mem_advanced_self hi, rfl, show Stage.stored ≠ .begun by decide, fun _ => if_pos rfl⟩
    · have hne' : call.atom.hash ≠ old.atom.hash := fun hhash => heq (hcalls.unique hcall hmem hhash)
      rw [if_neg hne']
      exact ⟨call, mem_advanced_of_ne hi hcall heq, rfl, hne, hcache⟩
  · have hknown : ∃ a, c.frontier.lookup call.atom.path = some a.hash ∧ Known calls a ∧
        a.path = call.atom.path ∧ a ∉ call.settled := by
      rcases mem_advanced hi hcall with rfl | hcall
      · exact h.shown old hmem (by rw [hold]; rfl)
      · exact h.shown call hcall hstage
    obtain ⟨a, ha, hknown, hrest⟩ := hknown
    exact ⟨a, ha, known_advanced hi hknown, hrest⟩

end

omit [Hashing H] in
theorem Inv.fail (hx : Inv codec atoms x) {atom : CausalAtom ι H} {settled : List (CausalAtom ι H)}
    (hi : x.calls[i]? = some ⟨atom, .begun, settled⟩) (hidle : ∀ alive, x.compaction ≠ .collected alive) :
    Inv codec atoms { x with calls := LoggedCrystal.advanced x.calls i .failed } where
  calls := hx.calls.advanced hi rfl
  log := hx.log.advanced hi (by decide) (fun h => by cases h)
  index := hx.index.advanced hi (by decide) (Or.inl rfl) (fun h => by cases h)
  collected alive halive := absurd halive (hidle alive)
  whole := hx.whole

omit [DecidableEq H] [Hashing H] in
theorem logged_of_whole (hwhole : x.torn = []) (data : Str) :
    x.logged data = { x with lines := x.lines ++ [data] } := by
  rw [logged, hwhole, nil_append]

omit [DecidableEq H] [Hashing H] in
/-- An append with an error that spares the log, or without one, either writes its record as a line of its own
or only fails. -/
theorem append_cases {fileError : Option FileError} (codec : LogCodec ι H) (i : ℕ) (atom : CausalAtom ι H)
    (hwhole : x.torn = []) (hspares : SparesLog fileError) :
    (∃ data, codec.line atom = .ok data ∧ fileError = none ∧ x.append codec i atom fileError =
      { x with lines := x.lines ++ [data], calls := advanced x.calls i .logged }) ∨
    x.append codec i atom fileError = { x with calls := advanced x.calls i .failed } := by
  unfold append
  cases hline : codec.line atom with
  | error msg => exact Or.inr rfl
  | ok data =>
    cases fileError with
    | none =>
      refine Or.inl ⟨data, rfl, rfl, ?_⟩
      simp only [logged_of_whole hwhole]
    | some e =>
      obtain rfl := hspares e rfl
      refine Or.inr ?_
      simp only [take_zero, append_nil]

theorem Inv.step_log (hx : Inv codec atoms x) {i : ℕ} {fileError : Option FileError}
    (hcare : x.Careful codec (.log i fileError)) :
    ∃ atoms, Inv codec atoms (x.step codec (.log i fileError)) := by
  obtain ⟨hspares, hidle⟩ := hcare
  simp only [step]
  split
  · rename_i atom settled hi
    rcases append_cases codec i atom hx.whole hspares with ⟨data, hline, -, happend⟩ | happend
    · rw [happend]
      exact ⟨_, hx.calls.advanced hi rfl, hx.log.log hx.calls hi rfl hline,
        hx.index.advanced hi (by decide) (Or.inl rfl) (fun h => by cases h),
        fun alive halive => absurd halive (hidle alive), hx.whole⟩
    · rw [happend]
      exact ⟨_, hx.fail hi hidle⟩
  · exact ⟨_, hx⟩

theorem Inv.step_index (hx : Inv codec atoms x) (i : ℕ) : Inv codec atoms (x.step codec (.index i)) := by
  simp only [step]
  split
  · rename_i atom settled hi
    obtain ⟨data, hline⟩ := hx.log.lined _ (mem_of_getElem? hi) rfl
    exact ⟨hx.calls.advanced hi rfl, hx.log.advanced hi (by decide) fun _ => rfl,
      hx.index.index hx.calls hi rfl hline, fun alive halive =>
        absurd rfl ((hx.collected alive halive).quiet _ (mem_of_getElem? hi)).1, hx.whole⟩
  · exact hx

theorem Inv.step_store (hx : Inv codec atoms x) (i : ℕ) : Inv codec atoms (x.step codec (.store i)) := by
  simp only [step]
  split
  · rename_i atom settled hi
    exact ⟨hx.calls.advanced hi rfl, hx.log.advanced hi (by decide) fun _ => rfl,
      hx.index.store hx.calls hi rfl, fun alive halive =>
        absurd rfl ((hx.collected alive halive).quiet _ (mem_of_getElem? hi)).2, hx.whole⟩
  · exact hx

theorem Inv.step_ret (hx : Inv codec atoms x) (i : ℕ) (range : List H) :
    Inv codec atoms (x.step codec (.ret i range)) := by
  have hsheds : x.crystal.Sheds (if x.crystal.atomCount > maxAtomCacheEntries then
      x.crystal.evictIfNeeded range else x.crystal) := by
    split_ifs
    · exact CausalCrystal.sheds_evictIfNeeded ..
    · exact .refl _
  simp only [step]
  split
  · rename_i atom settled hi
    exact ⟨hx.calls.advanced hi rfl, hx.log.advanced hi (by decide) fun _ => rfl,
      (hx.index.advanced hi (by decide) (Or.inr rfl) fun _ => rfl).sheds hsheds, fun alive halive =>
        (hx.collected alive halive).advanced hi (by decide) (by decide) fun _ => rfl, hx.whole⟩
  · exact hx

/-! ### The steps of a compaction -/

section

omit [Hashing H]

theorem IndexOk.getCurrent (h : IndexOk codec c calls)
    (hquiet : ∀ call ∈ calls, call.stage ≠ .logged ∧ call.stage ≠ .indexed) {p : Str} {hash : H}
    (hp : c.frontier.lookup p = some hash) : ∃ a, c.getCurrent p = some a ∧ a.hash = hash ∧
      a.path = p ∧ (∃ data, codec.line a = .ok data) ∧ Has calls (· ≠ .begun) a := by
  obtain ⟨a, hhash, hpath, hline, call, hcall, hatom, hne, hcache⟩ := h.frontier p hash hp
  exact ⟨a, CausalCrystal.getCurrent_eq_some.2 ⟨hash, hp, hcache (hquiet call hcall).2⟩, hhash, hpath,
    hline, call, hcall, hatom, hne⟩

theorem mem_alive : a ∈ alive c ↔ ∃ p hash, c.frontier.lookup p = some hash ∧ c.getCurrent p = some a := by
  rw [alive, mem_insertionSort, mem_filterMap]
  constructor
  · rintro ⟨p, -, hcur⟩
    obtain ⟨hash, hp, -⟩ := CausalCrystal.getCurrent_eq_some.1 hcur
    exact ⟨p, hash, hp, hcur⟩
  · rintro ⟨p, hash, hp, hcur⟩
    exact ⟨p, AList.mem_keys.1 (AList.lookup_isSome.1 (by rw [hp]; rfl)), hcur⟩

theorem IndexOk.collect (h : IndexOk codec c calls) (hcalls : CallsOk codec calls)
    (hquiet : ∀ call ∈ calls, call.stage ≠ .logged ∧ call.stage ≠ .indexed) :
    CollectedOk codec (alive c) calls := by
  have hown : ∀ a ∈ alive c, c.getCurrent a.path = some a ∧ Has calls (· ≠ .begun) a ∧
      ∃ data, codec.line a = .ok data := by
    intro a ha
    obtain ⟨p, hash, hp, hcur⟩ := mem_alive.1 ha
    obtain ⟨a', hcur', -, hpath, hline, hhas⟩ := h.getCurrent hquiet hp
    obtain rfl := Option.some.inj (hcur.symm.trans hcur')
    exact ⟨hpath ▸ hcur, hhas, hline⟩
  have hnd : ((alive c).map (·.hash)).Nodup := by
    refine ((perm_insertionSort ..).map _).nodup_iff.2 (pairwise_map.2
      (pairwise_filterMap.2 (c.frontier.keys_nodup.imp fun {p q} hne a ha b hb heq => hne ?_)))
    obtain ⟨hash, hp, -⟩ := CausalCrystal.getCurrent_eq_some.1 ha
    obtain ⟨hash', hq, -⟩ := CausalCrystal.getCurrent_eq_some.1 hb
    obtain ⟨a', ha', -, hpath, -, k, hk, rfl, -⟩ := h.getCurrent hquiet hp
    obtain ⟨b', hb', -, hpath', -, k', hk', rfl, -⟩ := h.getCurrent hquiet hq
    obtain rfl := Option.some.inj (ha.symm.trans ha')
    obtain rfl := Option.some.inj (hb.symm.trans hb')
    rw [← hpath, ← hpath', hcalls.unique hk hk' heq]
  refine ⟨hquiet, fun a ha => (hown a ha).2, hnd, fun call hcall hstage => ?_⟩
  obtain ⟨a, ha, hknown, hpath, hnot⟩ := h.shown call hcall hstage
  obtain ⟨a', hcur, hhash, -, -, hhas⟩ := h.getCurrent hquiet ha
  obtain ⟨k, hk, rfl, -⟩ := hknown
  obtain ⟨k', hk', rfl, -⟩ := hhas
  obtain rfl := hcalls.unique hk' hk hhash
  refine ⟨k'.atom, ?_, known_of_mem hk, hnot⟩
  rw [← hpath]
  refine CausalCrystal.getCurrent_recover_of_unique hnd (mem_alive.2 ⟨_, _, ha, hcur⟩) ?_
  intro b hb hpath'
  have hb' := (hown b hb).1
  rw [hpath', hpath, hcur] at hb'
  exact (Option.some.inj hb').symm

end

theorem Inv.step_collect (hx : Inv codec atoms x) (hcare : x.Careful codec .collect) :
    Inv codec atoms (x.step codec .collect) := by
  simp only [step]
  split
  · refine ⟨hx.calls, hx.log, hx.index, fun alive halive => ?_, hx.whole⟩
    obtain rfl := Compaction.collected.inj halive
    exact hx.index.collect hx.calls hcare
  · exact hx

theorem Inv.step_rewrite (hx : Inv codec atoms x) (fileError : Option Str) :
    ∃ atoms, Inv codec atoms (x.step codec (.rewrite fileError)) := by
  simp only [step]
  split
  · rename_i alive halive
    have hold := hx.collected alive halive
    split
    · rename_i lines hlines
      refine ⟨alive, hx.calls, ⟨LogCodec.written_of_rewrite hlines fun a ha => (hold.owned a ha).2,
        fun a ha => (hold.owned a ha).1, hold.nodup, hx.log.lined, fun call hcall hstage => ?_⟩,
        hx.index, (fun _ h => by cases h), rfl⟩
      -- a call that has written its atom has also stored it
      refine hold.kept call hcall ?_
      have hquiet := hold.quiet call hcall
      cases hs : call.stage <;> simp_all [Stage.written, Stage.shown]
    · exact ⟨atoms, hx.calls, hx.log, hx.index, (fun _ h => by cases h), hx.whole⟩
  · exact ⟨atoms, hx⟩

theorem Inv.step_evict (hx : Inv codec atoms x) : Inv codec atoms (x.step codec .evict) := by
  simp only [step]
  split
  · exact ⟨hx.calls, hx.log, hx.index.sheds (CausalCrystal.sheds_compact _), (fun _ h => by cases h), hx.whole⟩
  · exact hx

/-! ### Restarts -/

section

omit [DecidableEq H] [Hashing H]

theorem Has.stopped (hQ : ∀ s, s.ended = false → Q s → Q .crashed) (h : Has calls Q a) :
    Has (calls.map AppendCall.stopped) Q a := by
  obtain ⟨call, hcall, rfl, hstage⟩ := h
  refine ⟨call.stopped, mem_map_of_mem hcall, ?_, ?_⟩ <;> unfold AppendCall.stopped <;>
    split_ifs with hended
  · rfl
  · rfl
  · exact hstage
  · exact hQ _ (by simpa using hended) hstage

theorem stopped_eq (h : call.stopped.stage.written = true) :
    call.stopped = call ∧ call.stage = .returned := by
  unfold AppendCall.stopped at h ⊢
  cases hs : call.stage <;> simp_all [Stage.ended, Stage.written]

theorem atom_stopped (call : AppendCall ι H) :
    call.stopped.atom = call.atom ∧ call.stopped.settled = call.settled := by
  unfold AppendCall.stopped
  split_ifs <;> exact ⟨rfl, rfl⟩

end

omit [DecidableEq H] [Hashing H] in
theorem CallsOk.stopped (h : CallsOk codec calls) : CallsOk codec (calls.map AppendCall.stopped) where
  hashes := by
    rw [map_map]
    refine (map_congr_left fun call _ => ?_).symm ▸ h.hashes
    exact congrArg _ (atom_stopped call).1
  readable call' hcall' := by
    obtain ⟨call, hcall, rfl⟩ := mem_map.1 hcall'
    rw [(atom_stopped call).1]
    exact h.readable call hcall
  settled call' hcall' a ha := by
    obtain ⟨call, hcall, rfl⟩ := mem_map.1 hcall'
    rw [(atom_stopped call).2] at ha
    exact Has.stopped (Q := fun s => s.ended = true) (fun _ _ _ => rfl) (h.settled call hcall a ha)

omit [Hashing H] in
theorem LogOk.stopped (h : LogOk codec atoms lines calls) :
    LogOk codec atoms lines (calls.map AppendCall.stopped) where
  written := h.written
  owned a ha := Has.stopped (Q := (· ≠ .begun)) (fun _ _ _ => by decide) (h.owned a ha)
  nodup := h.nodup
  lined call' hcall' hstage := by
    obtain ⟨call, hcall, rfl⟩ := mem_map.1 hcall'
    rw [(atom_stopped call).1]
    exact h.lined call hcall (by rw [(stopped_eq hstage).2]; rfl)
  kept call' hcall' hstage := by
    obtain ⟨call, hcall, rfl⟩ := mem_map.1 hcall'
    rw [(stopped_eq hstage).1]
    exact (h.kept call hcall (by rw [(stopped_eq hstage).2]; rfl)).mono fun _ hknown =>
      hknown.stopped fun _ _ _ => trivial

omit [Hashing H] in
theorem LogOk.recover (h : LogOk codec atoms lines calls) :
    IndexOk codec (CausalCrystal.recover atoms) calls := by
  have hexact := CausalCrystal.exact_recover atoms
  have hnd : (atoms.reverse.map (·.hash)).Nodup := by
    rw [map_reverse]
    exact nodup_reverse.2 h.nodup
  have hcurrent : ∀ {p a}, (CausalCrystal.recover atoms).getCurrent p = some a →
      (CausalCrystal.recover atoms).frontier.lookup p = some a.hash ∧ a.path = p := by
    intro p a ha
    obtain ⟨hash, hp, hcache⟩ := CausalCrystal.getCurrent_eq_some.1 ha
    exact ⟨by rw [hp, (hexact.cached hash a hcache).1], hexact.paths hnd p a ha⟩
  refine ⟨fun p hash hp => ?_, fun call hcall hstage => ?_⟩
  · obtain ⟨a, ha⟩ := hexact.resolves p hash hp
    obtain ⟨hhash, hmem⟩ := hexact.cached hash a ha
    have hpath := (hcurrent (CausalCrystal.getCurrent_eq_some.2 ⟨hash, hp, ha⟩)).2
    have hmem := mem_reverse.1 hmem
    exact ⟨a, hhash, hpath, h.written.line_of_mem hmem,
      (h.owned a hmem).imp fun s hs => ⟨hs, fun _ => ha⟩⟩
  · obtain ⟨a, ha, hknown, hnot⟩ := h.kept call hcall (Stage.written_of_shown hstage)
    exact ⟨a, (hcurrent ha).1, hknown, (hcurrent ha).2, hnot⟩

theorem Inv.step_restart (hx : Inv codec atoms x) : Inv codec atoms (x.step codec .restart) := by
  refine ⟨hx.calls.stopped, hx.log.stopped, ?_, (fun _ h => by cases h), hx.whole⟩
  change IndexOk codec (x.recovered codec) (x.calls.map AppendCall.stopped)
  rw [hx.recovered_eq]
  exact hx.log.stopped.recover

/-! ### Runs -/

theorem Inv.step (hx : Inv codec atoms x) {action : LogAction ι H} (hcare : x.Careful codec action) :
    ∃ atoms, Inv codec atoms (x.step codec action) := by
  cases action with
  | begin expr path causalPast expiresAt now draw => exact ⟨atoms, hx.step_begin hcare⟩
  | log i fileError => exact hx.step_log hcare
  | index i => exact ⟨atoms, hx.step_index i⟩
  | store i => exact ⟨atoms, hx.step_store i⟩
  | ret i range => exact ⟨atoms, hx.step_ret i range⟩
  | collect => exact ⟨atoms, hx.step_collect hcare⟩
  | rewrite fileError => exact hx.step_rewrite fileError
  | evict => exact ⟨atoms, hx.step_evict⟩
  | restart => exact ⟨atoms, hx.step_restart⟩

theorem Inv.run : ∀ {actions : List (LogAction ι H)} {atoms : List (CausalAtom ι H)}
    {x : LoggedCrystal ι H}, Inv codec atoms x → x.CarefulRun codec actions →
      ∃ atoms, Inv codec atoms (x.run codec actions)
  | [], atoms, _, hx, _ => ⟨atoms, hx⟩
  | action :: actions, _, x, hx, hcare => by
    obtain ⟨atoms', hx'⟩ := hx.step hcare.1
    exact hx'.run hcare.2

/-- **Compaction keeps every acknowledged write**, in every run whose steps are careful. -/
theorem durable_of_careful {actions : List (LogAction ι H)}
    (h : (init : LoggedCrystal ι H).CarefulRun codec actions) :
    ((init : LoggedCrystal ι H).run codec actions).Durable codec := by
  obtain ⟨atoms, hx⟩ := inv_init.run h
  exact hx.durable

end LoggedCrystal

section Instances

local instance loggedHashing : Hashing Str := ⟨id, id, fun _ => 0⟩

def putLogged (s : String) : LogAction Unit Str :=
  .begin (.eConst (.vString (str s))) (str "k") [] zeroTime 0 ⟨str s, none, []⟩

def loggedAtom (n : ℕ) (s : Str) : CausalAtom Unit Str :=
  (⟨∅, ∅, 0, n⟩ : CausalCrystal Unit Str).mint 0 ⟨s, none, []⟩ (.eConst (.vString s)) (str "k") []
    zeroTime

/-- A log whose lines are the nonces: `old` is that of the first atom. -/
def nonceCodec : LogCodec Unit Str :=
  ⟨fun atom => .ok atom.nonce, fun data => some (loggedAtom (if data = str "old" then 0 else 1) data)⟩

def written (i : ℕ) : List (LogAction Unit Str) := [.log i none, .index i, .store i, .ret i []]

/-- A compaction collects the atom of the write of `old`; the write of `new` goes through; and the
compaction rewrites the log without it. -/
def lateRewrite : List (LogAction Unit Str) :=
  putLogged "old" :: written 0 ++ putLogged "new" :: .collect :: written 1 ++ [.rewrite none, .evict]

/-- The write of `new` has returned, and a restart gives the path the value `old`. -/
theorem compaction_loses_write :
    (LoggedCrystal.init.run nonceCodec lateRewrite).calls.map (fun call => (call.atom.nonce, call.stage)) =
        [(str "old", .returned), (str "new", .returned)] ∧
      (((LoggedCrystal.init.run nonceCodec lateRewrite).recovered nonceCodec).getCurrent
        (str "k")).map (·.nonce) = some (str "old") ∧
      ¬ (LoggedCrystal.init.run nonceCodec lateRewrite).Durable nonceCodec := by
  refine ⟨by decide +kernel, by decide +kernel, fun hdurable => ?_⟩
  have hcurrent : ((LoggedCrystal.init.run nonceCodec lateRewrite).recovered nonceCodec).getCurrent
      (str "k") = some (loggedAtom 0 (str "old")) := rfl
  have hcall : (⟨loggedAtom 1 (str "new"), .returned, [loggedAtom 0 (str "old")]⟩ :
      AppendCall Unit Str) ∈ (LoggedCrystal.init.run nonceCodec lateRewrite).calls :=
    mem_of_getElem? (show (LoggedCrystal.init.run nonceCodec lateRewrite).calls[1]? = _ from rfl)
  obtain ⟨later, -, hlater, hnot⟩ := hdurable _ hcall rfl
  rw [← Option.some.inj (hcurrent.symm.trans hlater)] at hnot
  exact hnot (.head _)

def earlyCollect : List (LogAction Unit Str) :=
  putLogged "old" :: written 0 ++ putLogged "new" :: written 1 ++ [.collect, .rewrite none, .evict]

theorem durable_of_careful_early : (LoggedCrystal.init.run nonceCodec earlyCollect).Durable nonceCodec := by
  have hold : nonceCodec.Readable (loggedAtom 0 (str "old")) := by
    intro data hdata
    obtain rfl := Except.ok.inj hdata
    exact ⟨rfl, by decide⟩
  have hnew : nonceCodec.Readable (loggedAtom 1 (str "new")) := by
    intro data hdata
    obtain rfl := Except.ok.inj hdata
    exact ⟨rfl, by decide⟩
  have hspares : LoggedCrystal.SparesLog none := fun _ h => by cases h
  -- nothing is collected before both calls are over
  exact LoggedCrystal.durable_of_careful ⟨⟨by decide +kernel, hold⟩, ⟨hspares, fun _ h => by cases h⟩, trivial,
    trivial, trivial, ⟨by decide +kernel, hnew⟩, ⟨hspares, fun _ h => by cases h⟩, trivial, trivial, trivial,
    (by decide +kernel : ∀ call ∈ LoggedCrystal.calls _, _), trivial, trivial, trivial⟩

end Instances

end Wavicle.Storage
