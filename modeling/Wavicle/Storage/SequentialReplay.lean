import Wavicle.Storage.ReplayOrder
import Wavicle.Storage.RecordTrip

/-! # Replay of a log that was written by one caller

One caller appends and compacts; an append can fail, and so can a compaction.

* `SeqOp`, `performAll`: the operations of the caller, as runs of the steps of `LoggedCrystal.step`.
* `latest`: the last atom of a path in a list of atoms.
* `Mirrors` relates the log to the crystal: the frontier has the latest atom of each path in the log, these atoms
  are in the cache, and the log is sorted by clocks.
* `RecordTexts.Admitted`: what is asked of an operation.
* `RecordTexts.replay_eq_live`: a restart finds what the caller has written. -/

namespace Wavicle.Storage

open Lib Wavicle.Core LoggedCrystal CausalCrystal List

/-- An operation of the caller. -/
inductive SeqOp (ι H : Type) where
  /-- `AppendAtom`; the file may fail -/
  | append (expr : Expr ι H) (path : Str) (causalPast : List H) (expiresAt now : Time) (draw : Draw H)
    (fileError : Option FileError)
  /-- `Compact`; the files may fail -/
  | compact (fileError : Option Str)

/-- The steps of an operation; the call has the number `i`. -/
def SeqOp.actions {ι H : Type} (i : ℕ) : SeqOp ι H → List (LogAction ι H)
  | .append expr path causalPast expiresAt now draw fileError =>
    [.begin expr path causalPast expiresAt now draw, .log i fileError, .index i, .store i, .ret i draw.range]
  | .compact fileError => [.collect, .rewrite fileError, .evict]

namespace LoggedCrystal

variable {ι H : Type} [DecidableEq H] [Hashing H] (codec : LogCodec ι H)

def perform (x : LoggedCrystal ι H) (op : SeqOp ι H) : LoggedCrystal ι H :=
  x.run codec (op.actions x.calls.length)

def performAll (x : LoggedCrystal ι H) (ops : List (SeqOp ι H)) : LoggedCrystal ι H :=
  ops.foldl (perform codec) x

/-! ### What an operation does -/

section Operations

variable {codec} {x : LoggedCrystal ι H}

omit [DecidableEq H] [Hashing H] in
theorem advanced_concat (calls : List (AppendCall ι H)) (call : AppendCall ι H) (stage : Stage) :
    advanced (calls ++ [call]) calls.length stage = calls ++ [{ call with stage }] := by
  induction calls with
  | nil => rfl
  | cons other calls ih => exact congrArg (other :: ·) ih

def shrunk (c : CausalCrystal ι H) (range : List H) : CausalCrystal ι H :=
  if c.atomCount > maxAtomCacheEntries then c.evictIfNeeded range else c

variable {expr : Expr ι H} {path : Str} {causalPast : List H} {expiresAt now : Time} {draw : Draw H}

/-- The call and its atom at the end of an append. -/
def ended (x : LoggedCrystal ι H) (atom : CausalAtom ι H) (stage : Stage) : List (AppendCall ι H) :=
  x.calls ++ [⟨atom, stage, x.settled⟩]

theorem perform_append {data : Str} (hwhole : x.torn = [])
    (hline : codec.line (x.crystal.mint now draw expr path causalPast expiresAt) = .ok data) :
    x.perform codec (.append expr path causalPast expiresAt now draw none) =
      ⟨x.lines ++ [data],
        shrunk (x.crystal.insertAtom (x.crystal.mint now draw expr path causalPast expiresAt)) draw.range,
        x.ended (x.crystal.mint now draw expr path causalPast expiresAt) .returned, x.compaction, []⟩ := by
  simp only [perform, SeqOp.actions, run, foldl_cons, foldl_nil, step, append, logged,
    List.getElem?_concat_length, hline, hwhole, nil_append, advanced_concat]
  rfl

/-- A call fails if its record cannot be written, or if the file has an error; nothing is left in the log. -/
theorem perform_append_failed {fileError : Option FileError} (hspares : SparesLog fileError)
    (hfail : ∀ data, codec.line (x.crystal.mint now draw expr path causalPast expiresAt) = .ok data →
      fileError ≠ none) :
    x.perform codec (.append expr path causalPast expiresAt now draw fileError) =
      ⟨x.lines, { x.crystal with clock := x.crystal.clock + 1 },
        x.ended (x.crystal.mint now draw expr path causalPast expiresAt) .failed, x.compaction, x.torn⟩ := by
  cases hline : codec.line (x.crystal.mint now draw expr path causalPast expiresAt) with
  | error msg =>
    simp only [perform, SeqOp.actions, run, foldl_cons, foldl_nil, step, append, List.getElem?_concat_length,
      hline, advanced_concat, ended]
  | ok data =>
    cases hfile : fileError with
    | none => exact absurd hfile (hfail data hline)
    | some e =>
      obtain rfl := hspares e hfile
      simp only [perform, SeqOp.actions, run, foldl_cons, foldl_nil, step, append,
        List.getElem?_concat_length, hline, advanced_concat, take_zero, append_nil, ended]

theorem perform_compact (hidle : x.compaction = .idle) {lines : List Str}
    (hlines : codec.rewrite (alive x.crystal) = .ok lines) :
    x.perform codec (.compact none) = ⟨lines, x.crystal.compact, x.calls, .idle, []⟩ := by
  simp only [perform, SeqOp.actions, run, foldl_cons, foldl_nil, step, hidle, hlines]

theorem perform_compact_failed (hidle : x.compaction = .idle) {fileError : Option Str}
    (hfail : ∀ lines, codec.rewrite (alive x.crystal) = .ok lines → fileError ≠ none) :
    x.perform codec (.compact fileError) = x := by
  obtain ⟨lines, crystal, calls, compaction, torn⟩ := x
  obtain rfl : compaction = .idle := hidle
  cases hlines : codec.rewrite (alive crystal) with
  | error msg => simp only [perform, SeqOp.actions, run, foldl_cons, foldl_nil, step, hlines]
  | ok lines =>
    cases fileError with
    | none => exact absurd rfl (hfail lines hlines)
    | some msg => simp only [perform, SeqOp.actions, run, foldl_cons, foldl_nil, step, hlines]

end Operations

end LoggedCrystal

/-! ### Latest atoms -/

section Latest

variable {ι H : Type} {atoms : List (CausalAtom ι H)}

def latest (atoms : List (CausalAtom ι H)) (p : Str) : Option (CausalAtom ι H) :=
  atoms.reverse.find? fun a => a.path = p

theorem latest_concat (atoms : List (CausalAtom ι H)) (a : CausalAtom ι H) (p : Str) :
    latest (atoms ++ [a]) p = if p = a.path then some a else latest atoms p := by
  rw [latest, reverse_concat, List.find?_cons]
  by_cases hp : p = a.path
  · simp [hp]
  · simp [hp, Ne.symm hp, latest]

variable {a : CausalAtom ι H}

theorem latest_eq_some {p : Str} (h : latest atoms p = some a) : a ∈ atoms ∧ a.path = p := by
  refine ⟨mem_reverse.1 (mem_of_find?_eq_some h), ?_⟩
  have hpath := List.find?_some h
  exact of_decide_eq_true hpath

theorem latest_eq_none {p : Str} : latest atoms p = none ↔ ∀ a ∈ atoms, a.path ≠ p := by
  simp [latest]

theorem latest_of_unique (ha : a ∈ atoms) (hunique : ∀ b ∈ atoms, b.path = a.path → b = a) :
    latest atoms a.path = some a := by
  cases hlatest : latest atoms a.path with
  | none => exact absurd rfl (latest_eq_none.1 hlatest a ha)
  | some b =>
    obtain ⟨hb, hpath⟩ := latest_eq_some hlatest
    rw [hunique b hb hpath]

/-- The clocks increase. -/
def ByClock (atoms : List (CausalAtom ι H)) : Prop := atoms.Pairwise fun a b => a.logicalClock < b.logicalClock

theorem ByClock.eq_of_clock (h : ByClock atoms) {b : CausalAtom ι H} (ha : a ∈ atoms)
    (hb : b ∈ atoms) (heq : a.logicalClock = b.logicalClock) : a = b := by
  have hnd : (atoms.map (·.logicalClock)).Nodup := pairwise_map.2 (h.imp fun hab => hab.ne)
  exact inj_on_of_nodup_map hnd ha hb heq

theorem ByClock.le_latest (h : ByClock atoms) (ha : a ∈ atoms) :
    ∃ b, latest atoms a.path = some b ∧ a.logicalClock ≤ b.logicalClock := by
  induction atoms using List.reverseRecOn with
  | nil => cases ha
  | append_singleton atoms b ih =>
    obtain ⟨hbefore, -, hlast⟩ := pairwise_append.1 h
    rw [latest_concat]
    by_cases hpath : a.path = b.path
    · rw [if_pos hpath]
      refine ⟨b, rfl, ?_⟩
      rcases mem_append.1 ha with ha | ha
      · exact (hlast a ha b (mem_singleton_self b)).le
      · rw [mem_singleton.1 ha]
    · rw [if_neg hpath]
      rcases mem_append.1 ha with ha | ha
      · exact ih hbefore ha
      · exact absurd (congrArg _ (mem_singleton.1 ha)) hpath

/-! ### Recovery -/

open CausalCrystal

variable [DecidableEq H]

theorem lookup_recover (atoms : List (CausalAtom ι H)) (p : Str) :
    (recover atoms).frontier.lookup p = (latest atoms p).map (·.hash) := by
  induction atoms using List.reverseRecOn with
  | nil => rfl
  | append_singleton atoms a ih =>
    rw [lookup_recover_concat, latest_concat, ih]
    split_ifs <;> rfl

theorem clock_recover_concat (atoms : List (CausalAtom ι H)) (a : CausalAtom ι H) :
    (recover (atoms ++ [a])).clock = max (recover atoms).clock a.logicalClock := by
  rw [recover, foldl_append]
  rfl

theorem clock_recover_le_iff {n : ℕ} : (recover atoms).clock ≤ n ↔ ∀ a ∈ atoms, a.logicalClock ≤ n := by
  induction atoms using List.reverseRecOn with
  | nil => exact ⟨fun _ => forall_mem_nil _, fun _ => Nat.zero_le n⟩
  | append_singleton atoms a ih =>
    rw [clock_recover_concat, max_le_iff, ih, forall_mem_append, forall_mem_singleton]

def trace (a : CausalAtom ι H) : H × Str × ℕ := (a.hash, a.path, a.logicalClock)

theorem recover_congr : ∀ {bs : List (CausalAtom ι H)}, bs.map trace = atoms.map trace →
    (∀ p, (recover bs).frontier.lookup p = (recover atoms).frontier.lookup p) ∧
      (recover bs).clock = (recover atoms).clock := by
  induction atoms using List.reverseRecOn with
  | nil =>
    intro bs h
    rw [map_eq_nil_iff.1 h]
    exact ⟨fun _ => rfl, rfl⟩
  | append_singleton atoms a ih =>
    intro bs h
    rw [map_append] at h
    obtain ⟨bs, last, rfl, hbs, hlast⟩ := map_eq_append_iff.1 h
    obtain ⟨b, rest, rfl, hb, hrest⟩ := map_eq_cons_iff.1 hlast
    obtain rfl := map_eq_nil_iff.1 hrest
    have hhash : b.hash = a.hash := congrArg (·.1) hb
    have hpath : b.path = a.path := congrArg (·.2.1) hb
    have hclock : b.logicalClock = a.logicalClock := congrArg (·.2.2) hb
    refine ⟨fun p => ?_, ?_⟩
    · rw [lookup_recover_concat, lookup_recover_concat, (ih hbs).1, hhash, hpath]
    · rw [clock_recover_concat, clock_recover_concat, (ih hbs).2, hclock]

/-- A record is read back with the same hash, path and clock, and it fits into the buffer of the scanner. -/
def LogCodec.Replayable (codec : LogCodec ι H) (a : CausalAtom ι H) : Prop :=
  ∀ data, codec.marshal a = .ok data →
    data.length ≠ maxLineSize ∧ ∃ b, codec.unmarshal data = some b ∧ trace b = trace a

omit [DecidableEq H] in
theorem LogCodec.Written.readAll_trace {codec : LogCodec ι H} {lines : List Str} (h : codec.Written atoms lines)
    (hreplay : ∀ a ∈ atoms, codec.Replayable a) : (codec.readAll lines).map trace = atoms.map trace := by
  induction h with
  | nil => rfl
  | @cons a data atoms lines hline _ ih =>
    obtain ⟨hdata, hle⟩ := LogCodec.line_eq_ok.1 hline
    obtain ⟨hne, b, hback, htrace⟩ := hreplay a (.head _) data hdata
    have hlt : data.length < maxLineSize := lt_of_le_of_ne hle hne
    have htail := ih (forall_mem_cons.1 hreplay).2
    unfold LogCodec.readAll at htail ⊢
    rw [takeWhile_cons_of_pos (by simpa using hlt), filterMap_cons, hback]
    exact congrArg₂ List.cons htrace htail

end Latest

namespace CausalCrystal

variable {ι H : Type} [DecidableEq H]

theorem clock_evictFrom : ∀ (range : List H) (budget : ℕ) (c : CausalCrystal ι H),
    (c.evictFrom budget range).clock = c.clock
  | [], 0, _ => rfl
  | [], _ + 1, _ => rfl
  | _ :: _, 0, _ => rfl
  | hash :: range, budget + 1, c => by
    rw [evictFrom]
    split
    · exact clock_evictFrom range (budget + 1) c
    · split_ifs
      · exact clock_evictFrom range (budget + 1) c
      · exact clock_evictFrom range budget (c.drop hash)

theorem clock_compact (c : CausalCrystal ι H) : c.compact.clock = c.clock := by
  unfold compact
  suffices hfold : ∀ (keys : List H) (d : CausalCrystal ι H),
      (keys.foldl (fun d hash => if c.onFrontier hash then d else d.drop hash) d).clock = d.clock from
    hfold _ c
  intro keys
  induction keys with
  | nil => exact fun _ => rfl
  | cons hash keys ih =>
    intro d
    rw [foldl_cons, ih]
    split_ifs <;> rfl

theorem getCurrent_insertAtom {c : CausalCrystal ι H} {atom : CausalAtom ι H}
    (hfresh : ∀ p, c.frontier.lookup p ≠ some atom.hash) (p : Str) :
    (c.insertAtom atom).getCurrent p = if p = atom.path then some atom else c.getCurrent p := by
  simp only [getCurrent, insertAtom, getAtom, GoMap.lookup_insert]
  by_cases hp : p = atom.path
  · rw [if_pos hp, if_pos hp]
    simp
  · rw [if_neg hp, if_neg hp]
    cases hfront : c.frontier.lookup p with
    | none => rfl
    | some hash =>
      have hne : hash ≠ atom.hash := fun heq => hfresh p (heq ▸ hfront)
      simp [hne]

end CausalCrystal

/-! ### The log mirrors the crystal -/

namespace LoggedCrystal

variable {ι H : Type} [DecidableEq H] {codec : LogCodec ι H}

theorem shrunk_sheds (c : CausalCrystal ι H) (range : List H) : c.Sheds (shrunk c range) := by
  unfold shrunk
  split_ifs
  · exact sheds_evictIfNeeded c range
  · exact CausalCrystal.Sheds.refl c

theorem shrunk_clock (c : CausalCrystal ι H) (range : List H) : (shrunk c range).clock = c.clock := by
  unfold shrunk evictIfNeeded
  split_ifs
  · rfl
  · exact clock_evictFrom _ _ _
  · rfl

/-- The last append has returned without an error, if there is one. -/
def LastReturned (calls : List (AppendCall ι H)) : Prop :=
  ∀ call, calls.getLast? = some call → call.stage = .returned

/-- **The invariant**: the atoms of the log and the crystal. -/
structure Mirrors (codec : LogCodec ι H) (atoms : List (CausalAtom ι H)) (x : LoggedCrystal ι H) : Prop where
  idle : x.compaction = .idle
  whole : x.torn = []
  written : codec.Written atoms x.lines
  replayable : ∀ a ∈ atoms, codec.Replayable a
  owned : ∀ a ∈ atoms, ∃ call ∈ x.calls, call.atom = a
  byClock : ByClock atoms
  clocks : ∀ a ∈ atoms, a.logicalClock ≤ x.crystal.clock
  frontier : ∀ p, x.crystal.frontier.lookup p = (latest atoms p).map (·.hash)
  current : ∀ p, x.crystal.getCurrent p = latest atoms p
  newest : (recover atoms).clock = x.crystal.clock ↔ LastReturned x.calls

theorem mirrors_init : Mirrors codec [] (init : LoggedCrystal ι H) where
  idle := rfl
  whole := rfl
  written := .nil
  replayable := forall_mem_nil _
  owned := forall_mem_nil _
  byClock := .nil
  clocks := forall_mem_nil _
  frontier _ := rfl
  current _ := rfl
  newest := ⟨fun _ _ h => (by cases h), fun _ => rfl⟩

section Steps

variable {atoms : List (CausalAtom ι H)} {x : LoggedCrystal ι H}

omit [DecidableEq H] in
theorem lastReturned_concat {calls : List (AppendCall ι H)} {call : AppendCall ι H} :
    LastReturned (calls ++ [call]) ↔ call.stage = .returned := by
  simp [LastReturned]

theorem Mirrors.append (h : Mirrors codec atoms x) {atom : CausalAtom ι H} {data : Str} {range : List H}
    (hline : codec.line atom = .ok data) (hreplay : codec.Replayable atom)
    (hclock : atom.logicalClock = x.crystal.clock + 1) (hfresh : ∀ call ∈ x.calls, call.atom.hash ≠ atom.hash) :
    Mirrors codec (atoms ++ [atom]) ⟨x.lines ++ [data], shrunk (x.crystal.insertAtom atom) range,
      x.ended atom .returned, x.compaction, []⟩ := by
  have hfront : ∀ p, x.crystal.frontier.lookup p ≠ some atom.hash := by
    intro p hp
    rw [h.frontier] at hp
    obtain ⟨a, ha, hhash⟩ := Option.map_eq_some_iff.1 hp
    obtain ⟨call, hcall, rfl⟩ := h.owned a (latest_eq_some ha).1
    exact hfresh call hcall hhash
  have hsheds := shrunk_sheds (x.crystal.insertAtom atom) range
  have hnewclock : (shrunk (x.crystal.insertAtom atom) range).clock = x.crystal.clock + 1 :=
    shrunk_clock (x.crystal.insertAtom atom) range
  constructor
  case idle => exact h.idle
  case whole => rfl
  case written => exact rel_append h.written (.cons hline .nil)
  case replayable => exact forall_mem_append.2 ⟨h.replayable, forall_mem_singleton.2 hreplay⟩
  case owned =>
    intro a ha
    rcases mem_append.1 ha with ha | ha
    · obtain ⟨call, hcall, heq⟩ := h.owned a ha
      exact ⟨call, mem_append_left _ hcall, heq⟩
    · exact ⟨_, mem_append_right _ (mem_singleton_self _), (mem_singleton.1 ha).symm⟩
  case byClock =>
    refine pairwise_append.2 ⟨h.byClock, pairwise_singleton _ _, fun a ha b hb => ?_⟩
    rw [mem_singleton.1 hb, hclock]
    exact Nat.lt_succ_of_le (h.clocks a ha)
  case clocks =>
    intro a ha
    change a.logicalClock ≤ (shrunk (x.crystal.insertAtom atom) range).clock
    rw [hnewclock]
    rcases mem_append.1 ha with ha | ha
    · exact Nat.le_succ_of_le (h.clocks a ha)
    · rw [mem_singleton.1 ha, hclock]
  case frontier =>
    intro p
    change (shrunk (x.crystal.insertAtom atom) range).frontier.lookup p = _
    rw [hsheds.frontier, latest_concat]
    change (x.crystal.frontier.insert atom.path atom.hash).lookup p = _
    rw [GoMap.lookup_insert, h.frontier]
    split_ifs <;> rfl
  case current =>
    intro p
    change (shrunk (x.crystal.insertAtom atom) range).getCurrent p = _
    rw [hsheds.getCurrent, getCurrent_insertAtom hfront, latest_concat, h.current]
  case newest =>
    have hle : (recover atoms).clock ≤ x.crystal.clock := clock_recover_le_iff.2 h.clocks
    refine iff_of_true ?_ (lastReturned_concat.2 rfl)
    change _ = (shrunk (x.crystal.insertAtom atom) range).clock
    rw [hnewclock, clock_recover_concat, hclock]
    omega

theorem Mirrors.append_failed (h : Mirrors codec atoms x) (atom : CausalAtom ι H) :
    Mirrors codec atoms ⟨x.lines, { x.crystal with clock := x.crystal.clock + 1 }, x.ended atom .failed,
      x.compaction, x.torn⟩ where
  idle := h.idle
  whole := h.whole
  written := h.written
  replayable := h.replayable
  owned a ha := by
    obtain ⟨call, hcall, heq⟩ := h.owned a ha
    exact ⟨call, mem_append_left _ hcall, heq⟩
  byClock := h.byClock
  clocks a ha := Nat.le_succ_of_le (h.clocks a ha)
  frontier := h.frontier
  current := h.current
  newest := by
    have hle : (recover atoms).clock ≤ x.crystal.clock := clock_recover_le_iff.2 h.clocks
    refine iff_of_false ?_ fun hlast => ?_
    · change (recover atoms).clock ≠ x.crystal.clock + 1
      omega
    · cases lastReturned_concat.1 hlast

/-! ### Compaction -/

theorem Mirrors.mem_alive_iff (h : Mirrors codec atoms x) {a : CausalAtom ι H} :
    a ∈ alive x.crystal ↔ latest atoms a.path = some a := by
  rw [mem_alive]
  constructor
  · rintro ⟨p, hash, -, hcur⟩
    rw [h.current] at hcur
    rw [(latest_eq_some hcur).2, hcur]
  · intro hlatest
    refine ⟨a.path, a.hash, ?_, ?_⟩
    · rw [h.frontier, hlatest]
      rfl
    · rw [h.current, hlatest]

theorem Mirrors.byClock_alive (h : Mirrors codec atoms x) : ByClock (alive x.crystal) := by
  have htrans : IsTrans (CausalAtom ι H) fun a b => a.logicalClock ≤ b.logicalClock :=
    ⟨fun _ _ _ hab hbc => hab.trans hbc⟩
  have htotal : Std.Total fun a b : CausalAtom ι H => a.logicalClock ≤ b.logicalClock :=
    ⟨fun a b => le_total a.logicalClock b.logicalClock⟩
  have hsorted : (alive x.crystal).Pairwise fun a b => a.logicalClock ≤ b.logicalClock :=
    pairwise_insertionSort _ _
  have hnd : (alive x.crystal).Nodup := by
    refine (perm_insertionSort ..).nodup_iff.2
      (pairwise_filterMap.2 (x.crystal.frontier.keys_nodup.imp fun {p q} hne a ha b hb heq => hne ?_))
    rw [h.current] at ha hb
    rw [← (latest_eq_some ha).2, ← (latest_eq_some hb).2, heq]
  refine (hsorted.and hnd).imp_of_mem fun ha hb hab => lt_of_le_of_ne hab.1 fun heq => hab.2 ?_
  exact h.byClock.eq_of_clock (latest_eq_some (h.mem_alive_iff.1 ha)).1 (latest_eq_some (h.mem_alive_iff.1 hb)).1 heq

theorem Mirrors.latest_alive (h : Mirrors codec atoms x) (p : Str) :
    latest (alive x.crystal) p = latest atoms p := by
  cases hlatest : latest atoms p with
  | none =>
    refine latest_eq_none.2 fun a ha => latest_eq_none.1 hlatest a ?_
    exact (latest_eq_some (h.mem_alive_iff.1 ha)).1
  | some a =>
    obtain ⟨-, rfl⟩ := latest_eq_some hlatest
    refine latest_of_unique (h.mem_alive_iff.2 hlatest) fun b hb hpath => ?_
    have hb' := h.mem_alive_iff.1 hb
    rw [hpath, hlatest] at hb'
    exact (Option.some.inj hb').symm

theorem Mirrors.compact (h : Mirrors codec atoms x) {lines : List Str}
    (hlines : codec.rewrite (alive x.crystal) = .ok lines) :
    Mirrors codec (alive x.crystal) ⟨lines, x.crystal.compact, x.calls, .idle, []⟩ := by
  have hsub : ∀ a ∈ alive x.crystal, a ∈ atoms := fun a ha => (latest_eq_some (h.mem_alive_iff.1 ha)).1
  have hsheds := sheds_compact x.crystal
  have hclock : (recover (alive x.crystal)).clock = (recover atoms).clock := by
    refine le_antisymm (clock_recover_le_iff.2 fun a ha => ?_) (clock_recover_le_iff.2 fun a ha => ?_)
    · exact clock_recover_le_iff.1 le_rfl a (hsub a ha)
    · obtain ⟨b, hb, hle⟩ := h.byClock.le_latest ha
      have hmem : b ∈ alive x.crystal := h.mem_alive_iff.2 ((latest_eq_some hb).2.symm ▸ hb)
      exact hle.trans (clock_recover_le_iff.1 le_rfl b hmem)
  constructor
  case idle => rfl
  case whole => rfl
  case written =>
    exact LogCodec.written_of_rewrite hlines fun a ha => h.written.line_of_mem (hsub a ha)
  case replayable => exact fun a ha => h.replayable a (hsub a ha)
  case owned => exact fun a ha => h.owned a (hsub a ha)
  case byClock => exact h.byClock_alive
  case clocks =>
    intro a ha
    change a.logicalClock ≤ x.crystal.compact.clock
    rw [clock_compact]
    exact h.clocks a (hsub a ha)
  case frontier =>
    intro p
    change x.crystal.compact.frontier.lookup p = _
    rw [hsheds.frontier, h.frontier, h.latest_alive]
  case current =>
    intro p
    change x.crystal.compact.getCurrent p = _
    rw [hsheds.getCurrent, h.current, h.latest_alive]
  case newest =>
    change (recover (alive x.crystal)).clock = x.crystal.compact.clock ↔ _
    rw [hclock, clock_compact]
    exact h.newest

end Steps

end LoggedCrystal

/-! ### Records in JSON -/

namespace RecordTexts

variable {ι H : Type} [DecidableEq H] [Hashing H] (T : RecordTexts ι H)

/-- An atom whose record can be read again: a constant or a composite of something, not nested too deeply, under a
path that is UTF-8. A record of exactly `maxLineSize` bytes is accepted by `Append`, but is too long for the
scanner. -/
structure Admits (a : CausalAtom ι H) : Prop where
  expr : (∃ v, a.expr = .eConst v) ∨ ∃ h hs, a.expr = .eCompose (h :: hs)
  depth : (T.expr a.expr).depth < Json.maxNestingDepth
  path : validString a.path = true
  length : ∀ data, T.marshal a = .ok data → data.length ≠ maxLineSize
  hash : isZero a.hash = false

/-- What is asked of an operation: the atom can be read again, no other one has its hash, and an error of the
file leaves nothing of its record in the log. -/
def Admitted (x : LoggedCrystal ι H) : SeqOp ι H → Prop
  | .append expr path causalPast expiresAt now draw fileError =>
    SparesLog fileError ∧ T.Admits (x.crystal.mint now draw expr path causalPast expiresAt) ∧
      ∀ call ∈ x.calls, call.atom.hash ≠ (x.crystal.mint now draw expr path causalPast expiresAt).hash
  | .compact _ => True

def AdmittedRun : LoggedCrystal ι H → List (SeqOp ι H) → Prop
  | _, [] => True
  | x, op :: ops => T.Admitted x op ∧ AdmittedRun (x.perform T.codec op) ops

variable {T}

omit [DecidableEq H] in
theorem Lawful.replayable (hT : T.Lawful) {a : CausalAtom ι H} (ha : T.Admits a) : T.codec.Replayable a := by
  intro data hdata
  refine ⟨ha.length data hdata, ?_⟩
  obtain ⟨e, he⟩ : ∃ e, returnedExpr a.expr = .ok e := by
    rcases ha.expr with ⟨v, hv⟩ | ⟨h, hs, hcompose⟩
    · exact ⟨_, congrArg returnedExpr hv⟩
    · exact ⟨_, congrArg returnedExpr hcompose⟩
  have hback := hT.unmarshalJSON_marshal hdata ha.depth
  rw [he] at hback
  refine ⟨returnedAtom a e, ?_, ?_⟩
  · change T.read data = _
    rw [read, hback]
    exact if_neg (Bool.not_eq_true _ ▸ ha.hash)
  · rw [trace, trace, returnedAtom, coerceUtf8_eq_self_iff.2 ha.path]

open LoggedCrystal in
theorem Lawful.mirrors_perform (hT : T.Lawful) {atoms : List (CausalAtom ι H)} {x : LoggedCrystal ι H}
    (h : Mirrors T.codec atoms x) {op : SeqOp ι H} (hop : T.Admitted x op) :
    ∃ atoms', Mirrors T.codec atoms' (x.perform T.codec op) := by
  cases op with
  | append expr path causalPast expiresAt now draw fileError =>
    obtain ⟨hspares, hadmits, hfresh⟩ := hop
    by_cases hok : ∃ data, T.codec.line (x.crystal.mint now draw expr path causalPast expiresAt) = .ok data ∧
        fileError = none
    · obtain ⟨data, hline, rfl⟩ := hok
      rw [perform_append h.whole hline]
      exact ⟨_, h.append hline (hT.replayable hadmits) rfl hfresh⟩
    · rw [perform_append_failed hspares fun data hline hfile => hok ⟨data, hline, hfile⟩]
      exact ⟨_, h.append_failed _⟩
  | compact fileError =>
    by_cases hok : ∃ lines, T.codec.rewrite (alive x.crystal) = .ok lines ∧ fileError = none
    · obtain ⟨lines, hlines, rfl⟩ := hok
      rw [perform_compact h.idle hlines]
      exact ⟨_, h.compact hlines⟩
    · rw [perform_compact_failed h.idle fun lines hlines hfile => hok ⟨lines, hlines, hfile⟩]
      exact ⟨_, h⟩

open LoggedCrystal in
theorem Lawful.mirrors_performAll (hT : T.Lawful) : ∀ {ops : List (SeqOp ι H)} {atoms : List (CausalAtom ι H)}
    {x : LoggedCrystal ι H}, Mirrors T.codec atoms x → T.AdmittedRun x ops →
      ∃ atoms', Mirrors T.codec atoms' (x.performAll T.codec ops)
  | [], atoms, _, h, _ => ⟨atoms, h⟩
  | _ :: _, _, _, h, hops => by
    obtain ⟨atoms', h'⟩ := hT.mirrors_perform h hops.1
    obtain ⟨atoms'', h''⟩ := mirrors_performAll hT h' hops.2
    exact ⟨atoms'', h''⟩

/-- **A restart finds what one caller has written.** The frontier is the same and all of it resolves; the clock is
the same exactly if the last append did not fail. -/
theorem replay_eq_live (hT : T.Lawful) {ops : List (SeqOp ι H)}
    (hops : T.AdmittedRun init ops) :
    (∀ p, ((init.performAll T.codec ops).recovered T.codec).frontier.lookup p =
        (init.performAll T.codec ops).crystal.frontier.lookup p) ∧
      (∀ p hash, ((init.performAll T.codec ops).recovered T.codec).frontier.lookup p = some hash →
        ∃ a, ((init.performAll T.codec ops).recovered T.codec).getAtom hash = some a ∧
          a.hash = hash) ∧ (((init.performAll T.codec ops).recovered T.codec).clock =
          (init.performAll T.codec ops).crystal.clock ↔
        LoggedCrystal.LastReturned (init.performAll T.codec ops).calls) := by
  obtain ⟨atoms, h⟩ := hT.mirrors_performAll mirrors_init hops
  have hread := h.written.readAll_trace h.replayable
  obtain ⟨hfrontier, hclock⟩ := recover_congr hread
  have hrecovered := recovered_of_whole T.codec h.whole
  refine ⟨fun p => ?_, fun p hash hp => ?_, ?_⟩
  · rw [hrecovered, hfrontier, lookup_recover, h.frontier]
  · rw [hrecovered] at hp ⊢
    have hexact := exact_recover
      (T.codec.readAll (init.performAll T.codec ops).lines)
    obtain ⟨a, ha⟩ := hexact.resolves p hash hp
    exact ⟨a, ha, (hexact.cached hash a ha).1⟩
  · rw [hrecovered, hclock]
    exact h.newest

end RecordTexts

/-! ### Two runs -/

def putPlain (k : String) (v : Value Unit) : SeqOp Unit Digest :=
  .append (.eConst v) (str k) [] zeroTime 0 ⟨List.replicate 16 7, none, []⟩ none

def putCompactPut : List (SeqOp Unit Digest) :=
  [putPlain "k" (.vString (str "a")), putPlain "k" (.vString (str "b")), .compact none,
    putPlain "l" (.vString (str "c"))]

theorem admits_plain {c : CausalCrystal Unit Digest} {k : String} {s : Str} (hk : validString (str k) = true)
    (hlength : (Json.obj (plainTexts.record
      (c.mint 0 ⟨List.replicate 16 7, none, []⟩ (.eConst (.vString s)) (str k) [] zeroTime) (decimalInt 0)
      (decimalInt zeroTime))).render.length ≠ maxLineSize)
    (hhash : RecordTexts.isZero
      (c.mint 0 ⟨List.replicate 16 7, none, []⟩ (.eConst (.vString s)) (str k) [] zeroTime).hash = false) :
    plainTexts.Admits (c.mint 0 ⟨List.replicate 16 7, none, []⟩ (.eConst (.vString s)) (str k) [] zeroTime) where
  expr := Or.inl ⟨_, rfl⟩
  depth := (by decide : 2 < Json.maxNestingDepth)
  path := hk
  length data hdata := by
    obtain rfl := Except.ok.inj hdata
    exact hlength
  hash := hhash

theorem replay_eq_live_compacted : plainTexts.AdmittedRun init putCompactPut ∧
    (((init.performAll plainTexts.codec putCompactPut).recovered plainTexts.codec).clock =
        (init.performAll plainTexts.codec putCompactPut).crystal.clock ↔
      LoggedCrystal.LastReturned (init.performAll plainTexts.codec putCompactPut).calls) := by
  have hspares : SparesLog none := fun _ h => by cases h
  have hrun : plainTexts.AdmittedRun init putCompactPut :=
    ⟨⟨hspares, admits_plain (by decide) (by decide +kernel) (by decide +kernel), by decide +kernel⟩,
      ⟨hspares, admits_plain (by decide) (by decide +kernel) (by decide +kernel), by decide +kernel⟩, trivial,
      ⟨hspares, admits_plain (by decide) (by decide +kernel) (by decide +kernel), by decide +kernel⟩, trivial⟩
  exact ⟨hrun, (RecordTexts.replay_eq_live plainTexts_lawful hrun).2.2⟩

/-- A score that is not a number cannot be written: the append fails after it has taken its tick, and a restart
finds an older clock. -/
theorem failed_append_ticks :
    (init.performAll plainTexts.codec [putPlain "z" (.vFloat 0x7FF8000000000001)]).crystal.clock = 1 ∧
      ((init.performAll plainTexts.codec
        [putPlain "z" (.vFloat 0x7FF8000000000001)]).recovered plainTexts.codec).clock = 0 := by
  decide +kernel

end Wavicle.Storage
