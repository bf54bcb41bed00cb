import Wavicle.Lib.Pool

/-! # Serial order

Programs that run concurrently on one service, and whether they could have run one after another with the same
results.

* `Turns`, `Turns.run`: threads that take their steps by a schedule; `Phase` says who has read and who has written.
* `serializable_of_orderly`: there is such an order if no thread writes while another has begun to read, and none
  makes a call while another has begun to write. -/

namespace Wavicle.Lib

open List

variable {Op : Type} {Res : Op → Type} {α σ τ : Type}

/-- What a thread has done to the shared state so far. -/
inductive Phase where
  | idle
  | reading
  | writing
  deriving DecidableEq

def Phase.after (phase : Phase) (write : Bool) : Phase :=
  if write then .writing else if phase = .idle then .reading else phase

/-- A pool of threads, with the phase of each. -/
structure Turns (Res : Op → Type) (α σ : Type) extends Pool Res α σ where
  phase : ℕ → Phase

/-- The programs run one after another in the given order: their results, and the state. -/
def serial (step : σ → (op : Op) → Res op × σ) (ps : List (Prog Res α)) (order : List ℕ) (s : σ) :
    List (ℕ × α) × σ :=
  order.foldl (fun acc i => match ps[i]? with
    | none => acc
    | some p => (acc.1 ++ [(i, (p.run step acc.2).1)], (p.run step acc.2).2)) ([], s)

namespace Turns

def start (s : σ) (ps : List (Prog Res α)) : Turns Res α σ := ⟨⟨s, ps⟩, fun _ => .idle⟩

variable (step : σ → (op : Op) → Res op × σ) (writes : Op → Bool)

variable (x : Turns Res α σ)

/-- Thread `i` makes its next call. -/
def advance (i : ℕ) : Turns Res α σ :=
  match x.next i with
  | none => x
  | some op =>
    ⟨x.toPool.advance step i, Function.update x.phase i ((x.phase i).after (writes op))⟩

def run (schedule : List ℕ) : Turns Res α σ :=
  schedule.foldl (advance step writes) x

def ended (j : ℕ) : Bool := x.threads[j]?.all Prog.ended

/-- Thread `j` does not mind if another one makes the call `op`: it has ended or not yet begun, or it is
reading and `op` is quiet. -/
def admits (op : Op) (j : ℕ) : Bool :=
  x.ended j || x.phase j = .idle || (x.phase j = .reading && !writes op)

/-- No other thread minds the next call of thread `i`. -/
def orderly (i : ℕ) : Bool :=
  match x.next i with
  | none => true
  | some op => (List.range x.threads.length).all fun j => j = i || x.admits writes op j

def orderlyRun : Turns Res α σ → List ℕ → Bool
  | _, [] => true
  | x, i :: schedule => x.orderly writes i && orderlyRun (x.advance step writes i) schedule

/-- The threads have ended with the results, and in the state up to `norm`, of a serial run. -/
def Serializable (norm : σ → τ) (ps : List (Prog Res α)) (s : σ) (x : Turns Res α σ) : Prop :=
  ∃ order : List ℕ, order.Perm (List.range ps.length) ∧
    (∀ i a, x.threads[i]? = some (.ret a) → (i, a) ∈ (serial step ps order s).1) ∧
    norm x.state = norm (serial step ps order s).2

end Turns

/-! ### Serial runs -/

section Serial

variable {step : σ → (op : Op) → Res op × σ} {ps : List (Prog Res α)}

theorem serial_append {order : List ℕ} {s : σ} {i : ℕ} {p : Prog Res α} (hp : ps[i]? = some p) :
    serial step ps (order ++ [i]) s =
      ((serial step ps order s).1 ++ [(i, (p.run step (serial step ps order s).2).1)],
        (p.run step (serial step ps order s).2).2) := by
  unfold serial
  rw [foldl_append, foldl_cons, foldl_nil, hp]

theorem serial_of_ret (s : σ) : ∀ order : List ℕ, (∀ i ∈ order, ∃ a, ps[i]? = some (.ret a)) →
    (serial step ps order s).2 = s ∧
      ∀ i ∈ order, ∀ a, ps[i]? = some (.ret a) → (i, a) ∈ (serial step ps order s).1 := by
  intro order
  induction order using List.reverseRecOn with
  | nil => exact fun _ => ⟨rfl, fun i hi => by cases hi⟩
  | append_singleton order j ih =>
    intro hret
    obtain ⟨b, hb⟩ := hret j (by simp)
    obtain ⟨hstate, hres⟩ := ih fun i hi => hret i (by simp [hi])
    rw [serial_append hb, Prog.run_ret]
    refine ⟨hstate, fun i hi a ha => ?_⟩
    rcases mem_append.1 hi with hi | hi
    · exact mem_append_left _ (hres i hi a ha)
    · obtain rfl := mem_singleton.1 hi
      rw [hb] at ha
      obtain rfl := Prog.ret.inj (Option.some.inj ha)
      exact mem_append_right _ (mem_singleton.2 rfl)

end Serial

/-! ### The invariant of orderly runs -/

namespace Turns

variable {step : σ → (op : Op) → Res op × σ} {writes : Op → Bool} {norm : σ → τ} {P : Op → Prop}

/-- What calls in `P` are answered, and what they do, depends on `norm` of the state only. -/
def Congruent (step : σ → (op : Op) → Res op × σ) (norm : σ → τ) (P : Op → Prop) : Prop :=
  ∀ s t op, P op → norm s = norm t →
    (step s op).1 = (step t op).1 ∧ norm (step s op).2 = norm (step t op).2

/-- A call in `P` that does not write leaves `norm` of the state alone. -/
def QuietReads (step : σ → (op : Op) → Res op × σ) (norm : σ → τ) (P : Op → Prop)
    (writes : Op → Bool) : Prop :=
  ∀ s op, P op → writes op = false → norm (step s op).2 = norm s

/-- `p` from the state `s` and `q` from the state `t` come to the same end. -/
def SameEnd (step : σ → (op : Op) → Res op × σ) (norm : σ → τ) (p : Prog Res α) (s : σ)
    (q : Prog Res α) (t : σ) : Prop :=
  (p.run step s).1 = (q.run step t).1 ∧ norm (p.run step s).2 = norm (q.run step t).2

theorem SameEnd.trans {p q r : Prog Res α} {s t u : σ} (h : SameEnd step norm p s q t)
    (h' : SameEnd step norm q t r u) : SameEnd step norm p s r u :=
  ⟨h.1.trans h'.1, h.2.trans h'.2⟩

theorem Congruent.sameEnd (hc : Congruent step norm P) : ∀ {p : Prog Res α}, p.CallsOnly P →
    ∀ {s t : σ}, norm s = norm t → SameEnd step norm p s p t
  | .ret _, _, _, _, h => ⟨rfl, h⟩
  | .call op k, ⟨hop, hk⟩, s, t, h => by
    obtain ⟨hans, hnorm⟩ := hc s t op hop h
    have hrest := hc.sameEnd (hk (step s op).1) hnorm
    unfold SameEnd at hrest ⊢
    rw [Prog.run_call, Prog.run_call, ← hans]
    exact hrest

/-- What holds in an orderly run, where the threads in `order` have ended, one after another. -/
structure Inv (step : σ → (op : Op) → Res op × σ) (norm : σ → τ) (P : Op → Prop)
    (ps : List (Prog Res α)) (s : σ) (x : Turns Res α σ) (order : List ℕ) : Prop where
  nodup : order.Nodup
  length : x.threads.length = ps.length
  mem : ∀ i, i ∈ order ↔ ∃ a, x.threads[i]? = some (.ret a)
  results : ∀ i a, x.threads[i]? = some (.ret a) → (i, a) ∈ (serial step ps order s).1
  calls : ∀ (i : ℕ) (q : Prog Res α), x.threads[i]? = some q → q.CallsOnly P
  idle : ∀ i, x.phase i = .idle → x.threads[i]? = ps[i]?
  /-- a thread that is under way ends as if it started after those that have ended -/
  agrees : ∀ i p q, ps[i]? = some p → x.threads[i]? = some q → i ∉ order → x.phase i ≠ .idle →
    SameEnd step norm p (serial step ps order s).2 q x.state
  settled : (∀ i, x.phase i = .writing → x.ended i = true) →
    norm x.state = norm (serial step ps order s).2
  alone : ∀ i, x.phase i = .writing → x.ended i = false →
    ∀ j, j ≠ i → x.ended j = true ∨ x.phase j = .idle

theorem ended_eq_false {x : Turns Res α σ} {i : ℕ} {op : Op} {k : Res op → Prog Res α}
    (h : x.threads[i]? = some (.call op k)) : x.ended i = false := by
  unfold ended
  rw [h]
  rfl

theorem ended_eq_true_iff {x : Turns Res α σ} {i : ℕ} (hi : i < x.threads.length) :
    x.ended i = true ↔ ∃ a, x.threads[i]? = some (.ret a) := by
  unfold ended
  rw [List.getElem?_eq_getElem hi, Option.all_some]
  cases x.threads[i] with
  | ret a => exact ⟨fun _ => ⟨a, rfl⟩, fun _ => rfl⟩
  | call op k =>
    constructor
    · intro h
      cases h
    · rintro ⟨a, ha⟩
      cases ha

theorem inv_start {ps : List (Prog Res α)} (hps : ∀ p ∈ ps, p.CallsOnly P) (s : σ) :
    ∃ order, Inv step norm P ps s (start s ps) order := by
  -- the threads that make no call have ended before the run begins
  let order := (List.range ps.length).filter (start s ps).ended
  have hmem : ∀ i, i ∈ order ↔ ∃ a, ps[i]? = some (.ret a) := by
    intro i
    rw [mem_filter, mem_range]
    constructor
    · rintro ⟨hi, hret⟩
      exact (ended_eq_true_iff (x := start s ps) hi).1 hret
    · rintro ⟨a, ha⟩
      obtain ⟨hi, -⟩ := List.getElem?_eq_some_iff.1 ha
      exact ⟨hi, (ended_eq_true_iff (x := start s ps) hi).2 ⟨a, ha⟩⟩
  have hserial : (serial step ps order s).2 = s ∧
      ∀ i ∈ order, ∀ a, ps[i]? = some (.ret a) → (i, a) ∈ (serial step ps order s).1 :=
    serial_of_ret s order fun i hi => (hmem i).1 hi
  exact ⟨order,
    { nodup := nodup_range.filter _
      length := rfl
      mem := hmem
      results := fun i a ha => hserial.2 i ((hmem i).2 ⟨a, ha⟩) a ha
      calls := fun i q hq => hps q (mem_of_getElem? hq)
      idle := fun _ _ => rfl
      agrees := fun i p q _ _ _ h => absurd rfl h
      settled := fun _ => by rw [hserial.1]; rfl
      alone := fun i h => by cases h }⟩

/-! ### One step -/

section Step

variable {ps : List (Prog Res α)} {s : σ} {x : Turns Res α σ} {order : List ℕ} {i : ℕ} {op : Op}
  {k : Res op → Prog Res α}

theorem advance_eq (hi : x.threads[i]? = some (.call op k)) : x.advance step writes i =
      ⟨⟨(step x.state op).2, x.threads.set i (k (step x.state op).1)⟩,
        Function.update x.phase i ((x.phase i).after (writes op))⟩ := by
  unfold advance
  rw [Pool.next_eq_some.2 ⟨k, hi⟩]
  simp only [Pool.advance_of_call hi]

theorem orderly_iff (hi : x.threads[i]? = some (.call op k)) :
    x.orderly writes i = true ↔ ∀ j, j ≠ i → x.admits writes op j = true := by
  unfold orderly
  rw [Pool.next_eq_some.2 ⟨k, hi⟩]
  simp only [all_eq_true, mem_range, Bool.or_eq_true, decide_eq_true_eq]
  constructor
  · intro h j hj
    by_cases hlt : j < x.threads.length
    · exact (h j hlt).resolve_left hj
    · have hend : x.ended j = true := by
        unfold ended
        rw [List.getElem?_eq_none (not_lt.1 hlt)]
        rfl
      simp [admits, hend]
  · intro h j _
    exact or_iff_not_imp_left.2 (h j)

variable {j : ℕ}

theorem admits_cases (h : x.admits writes op j = true) :
    x.ended j = true ∨ x.phase j = .idle ∨ x.phase j = .reading ∧ writes op = false := by
  simpa [admits, or_assoc] using h

variable (hinv : Inv step norm P ps s x order) (hi : x.threads[i]? = some (.call op k))
  (hadmits : ∀ j, j ≠ i → x.admits writes op j = true)

include hinv hi in
theorem Inv.exists_program : ∃ p, ps[i]? = some p := by
  obtain ⟨hlt, -⟩ := List.getElem?_eq_some_iff.1 hi
  exact ⟨_, List.getElem?_eq_getElem (hinv.length ▸ hlt)⟩

include hadmits in
theorem no_other_writer (hj : j ≠ i) (hw : x.phase j = .writing) : x.ended j = true := by
  rcases admits_cases (hadmits j hj) with h | h | ⟨h, -⟩
  · exact h
  · rw [hw] at h
    cases h
  · rw [hw] at h
    cases h

include hinv hi hadmits in
theorem Inv.sameEnd (hc : Congruent step norm P) {p : Prog Res α} (hp : ps[i]? = some p) :
    SameEnd step norm p (serial step ps order s).2 (.call op k) x.state := by
  by_cases hidle : x.phase i = .idle
  · have hq := hinv.idle i hidle
    rw [hi, hp] at hq
    obtain rfl := Option.some.inj hq
    refine hc.sameEnd (hinv.calls i _ hi) (hinv.settled fun j hw => ?_).symm
    by_cases hj : j = i
    · subst hj
      rw [hidle] at hw
      cases hw
    · exact no_other_writer hadmits hj hw
  · refine hinv.agrees i p _ hp hi (fun hmem => ?_) hidle
    obtain ⟨a, ha⟩ := (hinv.mem i).1 hmem
    rw [hi] at ha
    cases ha

include hinv hi hadmits in
theorem Inv.norm_of_reading (hquiet : QuietReads step norm P writes) (hphase : x.phase i ≠ .writing)
    (hop : writes op = false) :
    norm x.state = norm (serial step ps order s).2 ∧ norm (step x.state op).2 = norm x.state := by
  refine ⟨hinv.settled fun j hw => ?_, hquiet _ op (hinv.calls i _ hi).1 hop⟩
  by_cases hj : j = i
  · subst hj
    exact absurd hw hphase
  · exact no_other_writer hadmits hj hw

include hinv hi hadmits in
theorem Inv.others_idle (hwrote : x.phase i = .writing ∨ writes op = true) (hj : j ≠ i) :
    x.ended j = true ∨ x.phase j = .idle := by
  rcases hwrote with hphase | hop
  · exact hinv.alone i hphase (ended_eq_false hi) j hj
  · rcases admits_cases (hadmits j hj) with h | h | ⟨-, hread⟩
    · exact Or.inl h
    · exact Or.inr h
    · rw [hop] at hread
      cases hread

include hinv in
theorem Inv.mem_order_of_ended {q : Prog Res α} (hq : x.threads[j]? = some q)
    (hend : x.ended j = true) : j ∈ order := by
  obtain ⟨hlt, -⟩ := List.getElem?_eq_some_iff.1 hq
  exact (hinv.mem j).2 ((ended_eq_true_iff hlt).1 hend)

theorem after_eq_writing_iff (phase : Phase) (write : Bool) :
    phase.after write = .writing ↔ phase = .writing ∨ write = true := by
  cases phase <;> cases write <;> simp [Phase.after]

theorem after_ne_idle (phase : Phase) (write : Bool) : phase.after write ≠ .idle := by
  cases phase <;> cases write <;> simp [Phase.after]

/-- The threads and phases of a configuration after a step of thread `i`. -/
structure Moves (writes : Op → Bool) (x x' : Turns Res α σ) (i : ℕ) (op : Op) (q : Prog Res α) (t : σ) :
    Prop where
  state : x'.state = t
  self : x'.threads[i]? = some q
  other : ∀ j, j ≠ i → x'.threads[j]? = x.threads[j]?
  length : x'.threads.length = x.threads.length
  phase_self : x'.phase i = (x.phase i).after (writes op)
  phase_other : ∀ j, j ≠ i → x'.phase j = x.phase j

theorem moves_advance (hi : x.threads[i]? = some (.call op k)) :
    Moves writes x (x.advance step writes i) i op (k (step x.state op).1) (step x.state op).2 := by
  obtain ⟨hlt, -⟩ := List.getElem?_eq_some_iff.1 hi
  rw [advance_eq hi]
  exact
    { state := rfl
      self := List.getElem?_set_self hlt
      other := fun j hj => List.getElem?_set_ne (Ne.symm hj)
      length := length_set ..
      phase_self := Function.update_self ..
      phase_other := fun j hj => Function.update_of_ne hj .. }

theorem Moves.ended_other {x' : Turns Res α σ} {q : Prog Res α} {t : σ}
    (h : Moves writes x x' i op q t) (hj : j ≠ i) : x'.ended j = x.ended j := by
  unfold ended
  rw [h.other j hj]

include hinv hi hadmits in
theorem Inv.step_call (hc : Congruent step norm P) (hquiet : QuietReads step norm P writes)
    {op' : Op} {k' : Res op' → Prog Res α} (hk : k (step x.state op).1 = .call op' k') :
    Inv step norm P ps s (x.advance step writes i) order := by
  have hm : Moves writes x (x.advance step writes i) i op (k (step x.state op).1)
      (step x.state op).2 := moves_advance hi
  have hself : (x.advance step writes i).threads[i]? = some (.call op' k') := hk ▸ hm.self
  have hret : ∀ (j : ℕ) (a : α), (x.advance step writes i).threads[j]? = some (.ret a) ↔
      x.threads[j]? = some (.ret a) := by
    intro j a
    by_cases hj : j = i
    · subst hj
      rw [hself, hi]
      simp
    · rw [hm.other j hj]
  refine ⟨hinv.nodup, hm.length.trans hinv.length, fun j => ?_, fun j a ha => ?_, fun j q hq => ?_,
    fun j hidle => ?_, fun j p q hp hq hj hidle => ?_, fun hsettled => ?_, fun j hw hend l hl => ?_⟩
  · rw [hinv.mem j]
    exact exists_congr fun a => (hret j a).symm
  · exact hinv.results j a ((hret j a).1 ha)
  · by_cases hj : j = i
    · subst hj
      rw [hm.self] at hq
      exact Option.some.inj hq ▸ (hinv.calls j _ hi).2 _
    · exact hinv.calls j q (hm.other j hj ▸ hq)
  · by_cases hj : j = i
    · subst hj
      exact absurd (hm.phase_self ▸ hidle) (after_ne_idle _ _)
    · rw [hm.other j hj]
      exact hinv.idle j (hm.phase_other j hj ▸ hidle)
  · rw [hm.state]
    by_cases hji : j = i
    · subst hji
      rw [hm.self] at hq
      obtain rfl := Option.some.inj hq
      exact hinv.sameEnd hi hadmits hc hp
    · rw [hm.other j hji] at hq
      rw [hm.phase_other j hji] at hidle
      -- a thread under way is reading, so the call was quiet
      have hend : x.ended j = false := by
        by_contra hend
        exact hj (hinv.mem_order_of_ended hq (by simpa using hend))
      have hreading : writes op = false := by
        rcases admits_cases (hadmits j hji) with h | h | ⟨-, h⟩
        · rw [hend] at h
          cases h
        · exact absurd h hidle
        · exact h
      exact (hinv.agrees j p q hp hq hj hidle).trans (hc.sameEnd (hinv.calls j q hq)
        (hquiet _ op (hinv.calls i _ hi).1 hreading).symm)
  · have hphase : ¬ (x.phase i = .writing ∨ writes op = true) := fun hwrote => by
      have hend := hsettled i (hm.phase_self.trans ((after_eq_writing_iff _ _).2 hwrote))
      rw [ended_eq_false hself] at hend
      cases hend
    rw [not_or, Bool.not_eq_true] at hphase
    obtain ⟨hbefore, hafter⟩ := hinv.norm_of_reading hi hadmits hquiet hphase.1 hphase.2
    rw [hm.state]
    exact hafter.trans hbefore
  · by_cases hji : j = i
    · subst hji
      rw [hm.ended_other hl, hm.phase_other l hl]
      exact hinv.others_idle hi hadmits ((after_eq_writing_iff _ _).1 (hm.phase_self ▸ hw)) hl
    · rw [hm.phase_other j hji] at hw
      rw [hm.ended_other hji, no_other_writer hadmits hji hw] at hend
      cases hend

include hinv hi hadmits in
theorem Inv.step_ret (hc : Congruent step norm P) (hquiet : QuietReads step norm P writes)
    (hps : ∀ p ∈ ps, p.CallsOnly P) {a : α} (hk : k (step x.state op).1 = .ret a) :
    Inv step norm P ps s (x.advance step writes i) (order ++ [i]) := by
  have hm : Moves writes x (x.advance step writes i) i op (k (step x.state op).1)
      (step x.state op).2 := moves_advance hi
  rw [hk] at hm
  obtain ⟨p₀, hp₀⟩ := hinv.exists_program hi
  have hnot : i ∉ order := fun hmem => by
    obtain ⟨a, ha⟩ := (hinv.mem i).1 hmem
    rw [hi] at ha
    cases ha
  -- the serial run of the thread gives its result, and its state
  obtain ⟨hres, hstate⟩ := hinv.sameEnd hi hadmits hc hp₀
  rw [Prog.run_call, hk, Prog.run_ret] at hres hstate
  have hself : (x.advance step writes i).ended i = true := by
    unfold ended
    rw [hm.self]
    rfl
  have hserial : serial step ps (order ++ [i]) s = _ := serial_append hp₀
  have hsettled : norm (x.advance step writes i).state = norm (serial step ps (order ++ [i]) s).2 := by
    rw [hm.state, hserial]
    exact hstate.symm
  refine ⟨?_, hm.length.trans hinv.length, fun j => ?_, fun j b hb => ?_, fun j q hq => ?_,
    fun j hidle => ?_, fun j p q hp hq hj hidle => ?_, fun _ => hsettled, fun j hw hend l hl => ?_⟩
  · exact hinv.nodup.append (nodup_singleton i) (by simpa using hnot)
  · rw [mem_append, mem_singleton]
    by_cases hji : j = i
    · subst hji
      exact ⟨fun _ => ⟨a, hm.self⟩, fun _ => Or.inr rfl⟩
    · rw [hm.other j hji, ← hinv.mem j]
      simp [hji]
  · rw [hserial]
    by_cases hji : j = i
    · subst hji
      rw [hm.self] at hb
      obtain rfl := Prog.ret.inj (Option.some.inj hb)
      exact mem_append_right _ (by rw [hres]; exact mem_singleton.2 rfl)
    · rw [hm.other j hji] at hb
      exact mem_append_left _ (hinv.results j b hb)
  · by_cases hji : j = i
    · subst hji
      rw [hm.self] at hq
      exact Option.some.inj hq ▸ trivial
    · exact hinv.calls j q (hm.other j hji ▸ hq)
  · by_cases hji : j = i
    · subst hji
      exact absurd (hm.phase_self ▸ hidle) (after_ne_idle _ _)
    · rw [hm.other j hji]
      exact hinv.idle j (hm.phase_other j hji ▸ hidle)
  · rw [mem_append, mem_singleton, not_or] at hj
    rw [hm.other j hj.2] at hq
    rw [hm.phase_other j hj.2] at hidle
    have hend : x.ended j = false := by
      by_contra hend
      exact hj.1 (hinv.mem_order_of_ended hq (by simpa using hend))
    -- another thread is under way, so this one has only read
    have hread : ¬ (x.phase i = .writing ∨ writes op = true) := fun hwrote => by
      rcases hinv.others_idle hi hadmits hwrote hj.2 with h | h
      · rw [hend] at h
        cases h
      · exact hidle h
    rw [not_or, Bool.not_eq_true] at hread
    obtain ⟨hbefore, hafter⟩ := hinv.norm_of_reading hi hadmits hquiet hread.1 hread.2
    have hserial' : norm (serial step ps (order ++ [i]) s).2 = norm (serial step ps order s).2 := by
      rw [← hsettled, hm.state, hafter, hbefore]
    rw [hm.state]
    exact ((hc.sameEnd (hps p (mem_of_getElem? hp)) hserial').trans
      (hinv.agrees j p q hp hq hj.1 hidle)).trans (hc.sameEnd (hinv.calls j q hq) hafter.symm)
  · by_cases hji : j = i
    · subst hji
      rw [hself] at hend
      cases hend
    · rw [hm.phase_other j hji] at hw
      rw [hm.ended_other hji, no_other_writer hadmits hji hw] at hend
      cases hend

end Step

/-! ### Runs -/

section Runs

variable (hc : Congruent step norm P) (hquiet : QuietReads step norm P writes)
  {ps : List (Prog Res α)} (hps : ∀ p ∈ ps, p.CallsOnly P) {s : σ}
include hc hquiet hps

theorem Inv.advance {x : Turns Res α σ} {order : List ℕ} (hinv : Inv step norm P ps s x order) {i : ℕ}
    (h : x.orderly writes i = true) : ∃ order', Inv step norm P ps s (x.advance step writes i) order' := by
  cases hnext : x.next i with
  | none =>
    refine ⟨order, ?_⟩
    rwa [Turns.advance, hnext]
  | some op =>
    obtain ⟨k, hi⟩ := Pool.next_eq_some.1 hnext
    have hadmits := (orderly_iff hi).1 h
    cases hk : k (step x.state op).1 with
    | ret a => exact ⟨_, hinv.step_ret hi hadmits hc hquiet hps hk⟩
    | call op' k' => exact ⟨_, hinv.step_call hi hadmits hc hquiet hk⟩

theorem Inv.run (schedule : List ℕ) : ∀ {x : Turns Res α σ} {order : List ℕ},
    Inv step norm P ps s x order → x.orderlyRun step writes schedule = true →
      ∃ order', Inv step norm P ps s (x.run step writes schedule) order' := by
  induction schedule with
  | nil => exact fun hinv _ => ⟨_, hinv⟩
  | cons i schedule ih =>
    intro x order hinv h
    rw [orderlyRun, Bool.and_eq_true] at h
    obtain ⟨order', hinv'⟩ := hinv.advance hc hquiet hps h.1
    exact ih hinv' h.2

/-- **Orderly runs are serializable.** -/
theorem serializable_of_orderly {schedule : List ℕ}
    (h : (start s ps).orderlyRun step writes schedule = true)
    (hdone : ((start s ps).run step writes schedule).done = true) :
    Serializable step norm ps s ((start s ps).run step writes schedule) := by
  obtain ⟨order₀, hinv₀⟩ : ∃ order, Inv step norm P ps s (start s ps) order := inv_start hps s
  obtain ⟨order, hinv⟩ := hinv₀.run hc hquiet hps schedule h
  have hended : ∀ i, ((start s ps).run step writes schedule).ended i = true := by
    intro i
    unfold ended
    cases hq : ((start s ps).run step writes schedule).threads[i]? with
    | none => rfl
    | some q => exact all_eq_true.1 hdone q (mem_of_getElem? hq)
  refine ⟨order, ?_, hinv.results, hinv.settled fun i _ => hended i⟩
  refine (perm_ext_iff_of_nodup hinv.nodup nodup_range).2 fun i => ?_
  rw [hinv.mem i, mem_range, ← hinv.length]
  constructor
  · rintro ⟨a, ha⟩
    exact (List.getElem?_eq_some_iff.1 ha).1
  · exact fun hi => (ended_eq_true_iff hi).1 (hended i)

end Runs

end Turns

end Wavicle.Lib
