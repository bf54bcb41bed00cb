import Wavicle.Storage.Durability

/-! # The order of the log and the order of the frontier

Concurrent appends to one path write to the log in one order and set the frontier in another. A call whose
`Sync` fails is in the first order only: its record is in the log, and it does not set the frontier.

* `logOrder`, `showOrder`: the two orders of the calls of a run.
* `Ordered`: what a recovery and the frontier give for the path, in terms of these orders.
* `recovered_iff`: a recovery gives the hash on the frontier exactly if the last calls of the orders have one hash.
* `recovery_reorders`: two calls that come in different orders. -/

namespace Wavicle.Storage

open Lib Wavicle.Core List

variable {ι H : Type} [DecidableEq H] [Hashing H]

/-- The hash and the path of an atom are read back from its line, which fits into the buffer of the scanner. -/
def LogCodec.Traced (codec : LogCodec ι H) (atom : CausalAtom ι H) : Prop :=
  ∀ data, codec.marshal atom = .ok data → data.length ≠ maxLineSize ∧
    ∃ b, codec.unmarshal data = some b ∧ b.hash = atom.hash ∧ b.path = atom.path

/-- A step of an append to a path; a `Write` that fails leaves no part of the record in the log. -/
def LogAction.IsAppend (path : Str) : LogAction ι H → Prop
  | .begin _ p _ _ _ _ => p = path
  | .log _ fileError => ∀ n, fileError = some (.write n) → n = 0
  | .index _ | .store _ | .ret _ _ => True
  | _ => False

omit [DecidableEq H] [Hashing H] in
theorem LogCodec.readAll_concat (codec : LogCodec ι H) {lines : List Str} {data : Str}
    (hlines : ∀ line ∈ lines, line.length < maxLineSize) (hdata : data.length < maxLineSize) :
    codec.readAll (lines ++ [data]) = codec.readAll lines ++ (codec.unmarshal data).toList := by
  have hall : ∀ line ∈ lines ++ [data], decide (line.length < maxLineSize) = true := by
    intro line hline
    rcases mem_append.1 hline with hline | hline
    · exact decide_eq_true (hlines line hline)
    · exact decide_eq_true (mem_singleton.1 hline ▸ hdata)
  have hbefore : ∀ line ∈ lines, decide (line.length < maxLineSize) = true :=
    fun line hline => decide_eq_true (hlines line hline)
  unfold LogCodec.readAll
  rw [takeWhile_eq_self_iff.2 hall, takeWhile_eq_self_iff.2 hbefore, filterMap_append]
  cases hb : codec.unmarshal data with
  | none => simp [hb]
  | some b => simp [hb]

omit [Hashing H] in
theorem CausalCrystal.lookup_recover_concat (atoms : List (CausalAtom ι H)) (b : CausalAtom ι H) (p : Str) :
    (recover (atoms ++ [b])).frontier.lookup p =
      if p = b.path then some b.hash else (recover atoms).frontier.lookup p := by
  rw [recover, foldl_append]
  exact GoMap.lookup_insert ..

namespace LoggedCrystal

/-- `NewCausalCrystal` over a log with the given lines. -/
def start (codec : LogCodec ι H) (lines : List Str) : LoggedCrystal ι H :=
  ⟨lines, .recover (codec.readAll lines), [], .idle, []⟩

variable (codec : LogCodec ι H)

/-- The call whose record an action puts into the log. -/
def logs (x : LoggedCrystal ι H) : LogAction ι H → List ℕ
  | .log i fileError =>
    match x.calls[i]? with
    | some ⟨atom, .begun, _⟩ =>
      match codec.line atom, fileError with
      | .ok _, none => [i]
      | .ok _, some .sync => [i]
      | _, _ => []
    | _ => []
  | _ => []

/-- The call whose hash an action sets on the frontier. -/
def shows (x : LoggedCrystal ι H) : LogAction ι H → List ℕ
  | .index i =>
    match x.calls[i]? with
    | some ⟨_, .logged, _⟩ => [i]
    | _ => []
  | _ => []

def logOrder : LoggedCrystal ι H → List (LogAction ι H) → List ℕ
  | _, [] => []
  | x, action :: actions => x.logs codec action ++ logOrder (x.step codec action) actions

def showOrder : LoggedCrystal ι H → List (LogAction ι H) → List ℕ
  | _, [] => []
  | x, action :: actions => x.shows action ++ showOrder (x.step codec action) actions

/-- The hash of the last call of an order, and `base` if there is none. -/
def lastHash (hashes : List H) (base : Option H) (order : List ℕ) : Option H :=
  match order.getLast? with
  | none => base
  | some i => hashes[i]?

omit [DecidableEq H] [Hashing H] in
theorem lastHash_concat (hashes : List H) (base : Option H) (order : List ℕ) (i : ℕ) :
    lastHash hashes base (order ++ [i]) = hashes[i]? := by
  rw [lastHash, List.getLast?_concat]

omit [DecidableEq H] [Hashing H] in
theorem lastHash_append {hashes : List H} {base : Option H} {order : List ℕ}
    (horder : ∀ i ∈ order, i < hashes.length) (more : List H) :
    lastHash (hashes ++ more) base order = lastHash hashes base order := by
  unfold lastHash
  cases hlast : order.getLast? with
  | none => rfl
  | some i => exact List.getElem?_append_left (horder i (mem_of_getLast? hlast))

/-! ### The invariant -/

/-- What holds in a run of appends to a path, of the calls in the order of the log and of the frontier. -/
structure Ordered (path : Str) (base : Option H) (x : LoggedCrystal ι H) (logged shown : List ℕ) : Prop where
  paths : ∀ call ∈ x.calls, call.atom.path = path
  fits : ∀ line ∈ x.lines, line.length < maxLineSize
  whole : x.torn = []
  logged_lt : ∀ i ∈ logged, i < x.calls.length
  shown_lt : ∀ i ∈ shown, i < x.calls.length
  replayed : (x.recovered codec).frontier.lookup path =
    lastHash (x.calls.map (·.atom.hash)) base logged
  live : x.crystal.frontier.lookup path = lastHash (x.calls.map (·.atom.hash)) base shown

variable {codec} {path : Str} {base : Option H} {x : LoggedCrystal ι H} {logged shown : List ℕ} {i : ℕ}

variable {old : AppendCall ι H} {calls : List (AppendCall ι H)} {stage : Stage}
  {atom : CausalAtom ι H} {settled : List (CausalAtom ι H)} {actions : List (LogAction ι H)}

omit [DecidableEq H] [Hashing H] in
theorem length_advanced (calls : List (AppendCall ι H)) (i : ℕ) (stage : Stage) :
    (advanced calls i stage).length = calls.length := length_modify ..

omit [DecidableEq H] [Hashing H] in
theorem paths_advanced (hi : calls[i]? = some old) (h : ∀ call ∈ calls, call.atom.path = path) :
    ∀ call ∈ advanced calls i stage, call.atom.path = path := by
  intro call hcall
  rcases mem_advanced hi hcall with rfl | hcall
  · exact h old (mem_of_getElem? hi)
  · exact h call hcall

omit [Hashing H] in
theorem Ordered.advance (h : Ordered codec path base x logged shown) (hi : x.calls[i]? = some old)
    (stage : Stage) (crystal : CausalCrystal ι H) (hcrystal : crystal.frontier = x.crystal.frontier) :
    Ordered codec path base { x with crystal := crystal, calls := advanced x.calls i stage } logged
      shown where
  paths := paths_advanced hi h.paths
  fits := h.fits
  whole := h.whole
  logged_lt := by
    rw [length_advanced]
    exact h.logged_lt
  shown_lt := by
    rw [length_advanced]
    exact h.shown_lt
  replayed := by
    rw [map_hash_advanced]
    exact h.replayed
  live := by
    rw [map_hash_advanced, hcrystal]
    exact h.live

omit [Hashing H] in
theorem Ordered.begin (h : Ordered codec path base x logged shown) (hpath : atom.path = path)
    (settled : List (CausalAtom ι H)) (clock : ℕ) :
    Ordered codec path base { x with
      crystal := { x.crystal with clock := clock }, calls := x.calls ++ [⟨atom, .begun, settled⟩] }
      logged shown where
  paths call hcall := by
    rcases mem_append.1 hcall with hcall | hcall
    · exact h.paths call hcall
    · rw [mem_singleton.1 hcall]
      exact hpath
  fits := h.fits
  whole := h.whole
  -- a call that has just begun is in neither order
  logged_lt j hj := by
    rw [length_append]
    exact Nat.lt_add_right _ (h.logged_lt j hj)
  shown_lt j hj := by
    rw [length_append]
    exact Nat.lt_add_right _ (h.shown_lt j hj)
  replayed := by
    rw [map_append, lastHash_append (by rw [length_map]; exact h.logged_lt)]
    exact h.replayed
  live := by
    rw [map_append, lastHash_append (by rw [length_map]; exact h.shown_lt)]
    exact h.live

omit [DecidableEq H] [Hashing H] in
theorem forall_mem_concat_lt {order : List ℕ} (horder : ∀ j ∈ order, j < calls.length)
    (hi : calls[i]? = some old) : ∀ j ∈ order ++ [i], j < (advanced calls i stage).length := by
  intro j hj
  rw [length_advanced]
  rcases mem_append.1 hj with hj | hj
  · exact horder j hj
  · rw [mem_singleton.1 hj]
    exact (List.getElem?_eq_some_iff.1 hi).1

omit [Hashing H] in
/-- A record comes to the log; the call goes on or, if `Sync` has failed, is over. -/
theorem Ordered.log (h : Ordered codec path base x logged shown)
    (hi : x.calls[i]? = some ⟨atom, .begun, settled⟩) {data : Str} (hdata : codec.line atom = .ok data)
    (htraced : codec.Traced atom) (stage : Stage) :
    Ordered codec path base { x.logged data with calls := advanced x.calls i stage } (logged ++ [i]) shown := by
  obtain ⟨hmarshal, hle⟩ := LogCodec.line_eq_ok.1 hdata
  obtain ⟨hne, b, hb, hhash, hpath⟩ := htraced data hmarshal
  have hlt : data.length < maxLineSize := lt_of_le_of_ne hle hne
  have hatom : atom.path = path := h.paths _ (mem_of_getElem? hi)
  rw [logged_of_whole h.whole]
  refine ⟨paths_advanced hi h.paths, fun line hline => ?_, h.whole, forall_mem_concat_lt h.logged_lt hi, ?_,
    ?_, ?_⟩
  · rcases mem_append.1 hline with hline | hline
    · exact h.fits line hline
    · rw [mem_singleton.1 hline]
      exact hlt
  · rw [length_advanced]
    exact h.shown_lt
  · rw [map_hash_advanced, lastHash_concat, recovered_of_whole codec (by exact h.whole)]
    change (CausalCrystal.recover (codec.readAll (x.lines ++ [data]))).frontier.lookup path = _
    rw [codec.readAll_concat h.fits hlt, hb, Option.toList_some, CausalCrystal.lookup_recover_concat, hpath,
      if_pos hatom.symm, hhash, List.getElem?_map, hi]
    rfl
  · rw [map_hash_advanced]
    exact h.live

omit [Hashing H] in
theorem Ordered.index (h : Ordered codec path base x logged shown)
    (hi : x.calls[i]? = some ⟨atom, .logged, settled⟩) :
    Ordered codec path base { x with
      crystal := { x.crystal with frontier := x.crystal.frontier.insert atom.path atom.hash }
      calls := advanced x.calls i .indexed } logged (shown ++ [i]) := by
  have hatom : atom.path = path := h.paths _ (mem_of_getElem? hi)
  refine ⟨paths_advanced hi h.paths, h.fits, h.whole, ?_, forall_mem_concat_lt h.shown_lt hi, ?_, ?_⟩
  · rw [length_advanced]
    exact h.logged_lt
  · rw [map_hash_advanced]
    exact h.replayed
  · rw [map_hash_advanced, lastHash_concat]
    change (x.crystal.frontier.insert atom.path atom.hash).lookup path = _
    rw [GoMap.lookup_insert, if_pos hatom.symm, List.getElem?_map, hi]
    rfl

/-! ### Runs -/

theorem Ordered.step_log (h : Ordered codec path base x logged shown) {i : ℕ} {fileError : Option FileError}
    (haction : (LogAction.log i fileError : LogAction ι H).IsAppend path)
    (htraced : ∀ call ∈ x.calls, codec.Traced call.atom) :
    Ordered codec path base (x.step codec (.log i fileError)) (logged ++ x.logs codec (.log i fileError))
      shown := by
  cases hi : x.calls[i]? with
  | none =>
    simp only [LoggedCrystal.step, logs, hi, append_nil]
    exact h
  | some call =>
    obtain ⟨atom, stage, settled⟩ := call
    by_cases hstage : stage = .begun
    · subst hstage
      have htrace := htraced _ (mem_of_getElem? hi)
      cases hdata : codec.line atom with
      | error msg =>
        simp only [LoggedCrystal.step, logs, hi, append, hdata, append_nil]
        exact h.advance hi .failed x.crystal rfl
      | ok data =>
        rcases fileError with _ | ⟨n⟩ | _
        · simp only [LoggedCrystal.step, logs, hi, append, hdata]
          exact h.log hi hdata htrace .logged
        · obtain rfl := haction n rfl
          simp only [LoggedCrystal.step, logs, hi, append, hdata, append_nil, take_zero]
          exact h.advance hi .failed x.crystal rfl
        · simp only [LoggedCrystal.step, logs, hi, append, hdata]
          exact h.log hi hdata htrace .failed
    · have hstep : x.step codec (.log i fileError) = x := by
        cases stage <;> first | exact absurd rfl hstage | simp only [LoggedCrystal.step, hi]
      have hlogs : x.logs codec (.log i fileError) = [] := by
        cases stage <;> first | exact absurd rfl hstage | simp only [logs, hi]
      rw [hstep, hlogs, append_nil]
      exact h

theorem Ordered.step_index (h : Ordered codec path base x logged shown) (i : ℕ) :
    Ordered codec path base (x.step codec (.index i)) logged (shown ++ x.shows (.index i)) := by
  cases hi : x.calls[i]? with
  | none =>
    simp only [LoggedCrystal.step, shows, hi, append_nil]
    exact h
  | some call =>
    obtain ⟨atom, stage, settled⟩ := call
    by_cases hstage : stage = .logged
    · subst hstage
      simp only [LoggedCrystal.step, shows, hi]
      exact h.index hi
    · have hstep : x.step codec (.index i) = x := by
        cases stage <;> first | exact absurd rfl hstage | simp only [LoggedCrystal.step, hi]
      have hshows : x.shows (.index i) = [] := by
        cases stage <;> first | exact absurd rfl hstage | simp only [shows, hi]
      rw [hstep, hshows, append_nil]
      exact h

theorem Ordered.step (h : Ordered codec path base x logged shown) {action : LogAction ι H}
    (haction : action.IsAppend path) (htraced : ∀ call ∈ x.calls, codec.Traced call.atom) :
    Ordered codec path base (x.step codec action) (logged ++ x.logs codec action)
      (shown ++ x.shows action) := by
  cases action with
  | begin expr p causalPast expiresAt now draw =>
    have hlogs : x.logs codec (.begin expr p causalPast expiresAt now draw) = [] := rfl
    have hshows : x.shows (.begin expr p causalPast expiresAt now draw) = [] := rfl
    have hpath : (x.crystal.mint now draw expr p causalPast expiresAt).path = path := haction
    rw [hlogs, hshows, append_nil, append_nil]
    exact h.begin hpath _ _
  | log i fileError =>
    have hshows : x.shows (.log i fileError) = [] := rfl
    rw [hshows, append_nil]
    exact h.step_log haction htraced
  | index i =>
    have hlogs : x.logs codec (.index i) = [] := rfl
    rw [hlogs, append_nil]
    exact h.step_index i
  | store i =>
    have hlogs : x.logs codec (.store i) = [] := rfl
    have hshows : x.shows (.store i) = [] := rfl
    rw [hlogs, hshows, append_nil, append_nil]
    unfold LoggedCrystal.step
    dsimp only
    split
    · rename_i hi
      exact h.advance hi .stored _ rfl
    · exact h
  | ret i range =>
    have hlogs : x.logs codec (.ret i range) = [] := rfl
    have hshows : x.shows (.ret i range) = [] := rfl
    rw [hlogs, hshows, append_nil, append_nil]
    unfold LoggedCrystal.step
    dsimp only
    split
    · rename_i hi
      refine h.advance hi .returned _ ?_
      split_ifs
      · exact (CausalCrystal.sheds_evictIfNeeded x.crystal range).frontier
      · rfl
    · exact h
  | _ => exact haction.elim

theorem atoms_step (codec : LogCodec ι H) (x : LoggedCrystal ι H) {action : LogAction ι H}
    (haction : action.IsAppend path) :
    x.calls.map (·.atom) <+: (x.step codec action).calls.map (·.atom) := by
  have hadvanced : ∀ i stage, (advanced x.calls i stage).map (·.atom) = x.calls.map (·.atom) := by
    intro i stage
    refine ext_getElem? fun j => ?_
    simp only [advanced, List.getElem?_map, List.getElem?_modify]
    cases x.calls[j]? with
    | none => rfl
    | some call =>
      simp only [Option.map_eq_map, Option.map_some]
      split_ifs <;> rfl
  cases action with
  | begin expr p causalPast expiresAt now draw =>
    unfold LoggedCrystal.step
    dsimp only
    rw [map_append]
    exact prefix_append _ _
  | log i fileError | index i | store i | ret i range =>
    unfold LoggedCrystal.step
    dsimp only [append, LoggedCrystal.logged]
    repeat' split
    all_goals
      first
      | exact prefix_rfl
      | exact (hadvanced _ _).symm ▸ prefix_rfl
  | _ => exact haction.elim

theorem atoms_run (codec : LogCodec ι H) (x : LoggedCrystal ι H)
    (hactions : ∀ action ∈ actions, action.IsAppend path) :
    x.calls.map (·.atom) <+: (x.run codec actions).calls.map (·.atom) := by
  induction actions generalizing x with
  | nil => exact prefix_rfl
  | cons action actions ih =>
    exact (atoms_step codec x (hactions action (.head _))).trans
      (ih (x.step codec action) fun a ha => hactions a (.tail _ ha))

theorem Ordered.run (h : Ordered codec path base x logged shown)
    (hactions : ∀ action ∈ actions, action.IsAppend path)
    (htraced : ∀ call ∈ (x.run codec actions).calls, codec.Traced call.atom) :
    Ordered codec path base (x.run codec actions) (logged ++ logOrder codec x actions)
      (shown ++ showOrder codec x actions) := by
  induction actions generalizing x logged shown with
  | nil =>
    rw [logOrder, showOrder, append_nil, append_nil]
    exact h
  | cons action actions ih =>
    have hnow : ∀ call ∈ x.calls, codec.Traced call.atom := by
      intro call hcall
      have hmem := (atoms_run codec x hactions).mem (mem_map_of_mem hcall)
      obtain ⟨later, hlater, heq⟩ := mem_map.1 hmem
      exact heq ▸ htraced later hlater
    have hstep := h.step (hactions action (.head _)) hnow
    rw [logOrder, showOrder, ← append_assoc, ← append_assoc]
    exact ih hstep (forall_mem_cons.1 hactions).2 htraced

omit [Hashing H] in
theorem ordered_start {lines : List Str} (hfits : ∀ line ∈ lines, line.length < maxLineSize) :
    Ordered codec path ((CausalCrystal.recover (codec.readAll lines)).frontier.lookup path)
      (start codec lines) [] [] where
  paths := forall_mem_nil _
  fits := hfits
  whole := rfl
  logged_lt := forall_mem_nil _
  shown_lt := forall_mem_nil _
  replayed := rfl
  live := rfl

def hashes (x : LoggedCrystal ι H) : List H := x.calls.map (·.atom.hash)

/-- **Recovery reproduces the live order** of concurrent appends to a path exactly if the call that came last in
the log has the hash of the one that set the frontier last, where the hash at the start stands for a call that is
missing. -/
theorem recovered_iff {lines : List Str} (hfits : ∀ line ∈ lines, line.length < maxLineSize)
    (actions : List (LogAction ι H)) (hactions : ∀ action ∈ actions, action.IsAppend path)
    (htraced : ∀ call ∈ ((start codec lines).run codec actions).calls, codec.Traced call.atom) :
    (((start codec lines).run codec actions).recovered codec).getCurrentHash path =
      ((start codec lines).run codec actions).crystal.getCurrentHash path ↔
    lastHash ((start codec lines).run codec actions).hashes ((start codec lines).crystal.getCurrentHash path)
        (logOrder codec (start codec lines) actions) =
      lastHash ((start codec lines).run codec actions).hashes ((start codec lines).crystal.getCurrentHash path)
        (showOrder codec (start codec lines) actions) := by
  have hrun := (ordered_start hfits).run hactions htraced
  rw [nil_append, nil_append] at hrun
  rw [CausalCrystal.getCurrentHash, CausalCrystal.getCurrentHash, hrun.replayed, hrun.live]
  exact Iff.rfl

section Instances

local instance replayedHashing : Hashing Str := ⟨id, id, fun _ => 0⟩

def putReplayed (s : String) : LogAction Unit Str :=
  .begin (.eConst (.vString (str s))) (str "k") [] zeroTime 0 ⟨str s, none, []⟩

def replayedAtom (n : ℕ) (s : Str) : CausalAtom Unit Str :=
  (⟨∅, ∅, 0, n⟩ : CausalCrystal Unit Str).mint 0 ⟨s, none, []⟩ (.eConst (.vString s)) (str "k") []
    zeroTime

/-- A log whose lines are the nonces: `a` is that of the first atom. -/
def replayedCodec : LogCodec Unit Str :=
  ⟨fun atom => .ok atom.nonce, fun data => some (replayedAtom (if data = str "a" then 0 else 1) data)⟩

/-- Both calls write to the log, `a` before `b`, and `b` sets the frontier before `a`. -/
def crossed : List (LogAction Unit Str) :=
  [putReplayed "a", putReplayed "b", .log 0 none, .log 1 none, .index 1, .index 0, .store 0, .store 1,
    .ret 0 [], .ret 1 []]

example : logOrder replayedCodec (start replayedCodec []) crossed = [0, 1] ∧
    showOrder replayedCodec (start replayedCodec []) crossed = [1, 0] := by decide +kernel

/-- The live path has the value of `a`, and a restart gives it that of `b`. -/
theorem recovery_reorders :
    ((start replayedCodec []).run replayedCodec crossed).calls.map (·.stage) = [.returned, .returned] ∧
      (((start replayedCodec []).run replayedCodec crossed).crystal.getCurrent (str "k")).map (·.nonce) =
        some (str "a") ∧
      ((((start replayedCodec []).run replayedCodec crossed).recovered replayedCodec).getCurrent
        (str "k")).map (·.nonce) = some (str "b") ∧
      (((start replayedCodec []).run replayedCodec crossed).recovered replayedCodec).getCurrentHash (str "k") ≠
        ((start replayedCodec []).run replayedCodec crossed).crystal.getCurrentHash (str "k") := by
  refine ⟨?_, ?_, ?_, ?_⟩ <;> decide +kernel

/-- Both calls write to the log before either sets the frontier, in the same order. -/
def uncrossed : List (LogAction Unit Str) :=
  [putReplayed "a", putReplayed "b", .log 0 none, .log 1 none, .index 0, .index 1, .store 0, .store 1,
    .ret 0 [], .ret 1 []]

theorem recovered_iff_uncrossed :
    (((start replayedCodec []).run replayedCodec uncrossed).recovered replayedCodec).getCurrentHash
        (str "k") =
      ((start replayedCodec []).run replayedCodec uncrossed).crystal.getCurrentHash (str "k") := by
  refine (recovered_iff (forall_mem_nil _) uncrossed ?_ ?_).2 (by decide +kernel)
  · intro action haction
    simp only [uncrossed, mem_cons, not_mem_nil, or_false] at haction
    rcases haction with rfl | rfl | rfl | rfl | rfl | rfl | rfl | rfl | rfl | rfl <;>
      first | rfl | trivial | exact fun _ h => by cases h
  · have hcalls : ((start replayedCodec []).run replayedCodec uncrossed).calls.map (·.atom) =
        [replayedAtom 0 (str "a"), replayedAtom 1 (str "b")] := by rfl
    intro call hcall data hdata
    have hmem := mem_map_of_mem (f := (·.atom)) hcall
    rw [hcalls] at hmem
    simp only [mem_cons, not_mem_nil, or_false] at hmem
    rcases hmem with heq | heq <;> rw [heq] at hdata <;> obtain rfl := Except.ok.inj hdata
    · exact ⟨by decide, replayedAtom 0 (str "a"), rfl, by rw [heq], by rw [heq]⟩
    · exact ⟨by decide, replayedAtom 1 (str "b"), rfl, by rw [heq], by rw [heq]⟩

end Instances

end LoggedCrystal

end Wavicle.Storage
