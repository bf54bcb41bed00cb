import Wavicle.Lib.Interleave

/-! # Pools of programs

Programs that run concurrently on one service. A scheduler picks a thread by its index, and the thread
makes its next call; one that has ended is left alone. -/

namespace Wavicle.Lib

variable {Op : Type} {Res : Op → Type} {α σ : Type}

/-- The state of the service, and what is left of each thread's program. -/
structure Pool (Res : Op → Type) (α σ : Type) where
  state : σ
  threads : List (Prog Res α)

def Prog.ended : Prog Res α → Bool
  | .ret _ => true
  | .call _ _ => false

def Prog.result : Prog Res α → Option α
  | .ret a => some a
  | .call _ _ => none

theorem Prog.result_eq_some {p : Prog Res α} {a : α} : p.result = some a ↔ p = .ret a := by
  cases p <;> simp [result]

namespace Pool

def next (x : Pool Res α σ) (i : ℕ) : Option Op :=
  match x.threads[i]? with
  | some (.call op _) => some op
  | _ => none

def done (x : Pool Res α σ) : Bool := x.threads.all Prog.ended

variable (step : σ → (op : Op) → Res op × σ)

/-- Thread `i` makes its next call. -/
def advance (x : Pool Res α σ) (i : ℕ) : Pool Res α σ :=
  match x.threads[i]? with
  | some (.call op k) => ⟨(step x.state op).2, x.threads.set i (k (step x.state op).1)⟩
  | _ => x

variable {step}

variable {x : Pool Res α σ}

theorem next_eq_some {i : ℕ} {op : Op} : x.next i = some op ↔ ∃ k, x.threads[i]? = some (.call op k) := by
  unfold next
  constructor
  · intro h
    split at h
    · rename_i op' k hthread
      obtain rfl := Option.some.inj h
      exact ⟨k, hthread⟩
    · cases h
  · rintro ⟨k, hk⟩
    rw [hk]

theorem next_eq_none_of_done (h : x.done = true) (i : ℕ) : x.next i = none := by
  rw [Option.eq_none_iff_forall_ne_some]
  intro op hop
  obtain ⟨k, hk⟩ := next_eq_some.1 hop
  exact absurd (List.all_eq_true.1 h _ (List.mem_of_getElem? hk)) (by simp [Prog.ended])

theorem advance_of_call {i : ℕ} {op : Op} {k : Res op → Prog Res α}
    (h : x.threads[i]? = some (.call op k)) :
    x.advance step i = ⟨(step x.state op).2, x.threads.set i (k (step x.state op).1)⟩ := by
  unfold advance
  rw [h]

theorem advance_of_next_eq_none {i : ℕ} (h : x.next i = none) : x.advance step i = x := by
  unfold next at h
  unfold advance
  split at h
  · cases h
  · rfl

theorem getElem?_set_thread {threads : List (Prog Res α)} {i j : ℕ} {p q : Prog Res α}
    {p₀ : Prog Res α} (hi : threads[i]? = some p₀) (h : (threads.set i p)[j]? = some q) :
    (j = i ∧ q = p) ∨ (j ≠ i ∧ threads[j]? = some q) := by
  by_cases hij : i = j
  · subst hij
    obtain ⟨hlt, -⟩ := List.getElem?_eq_some_iff.1 hi
    rw [List.getElem?_set_self hlt] at h
    exact Or.inl ⟨rfl, (Option.some.inj h).symm⟩
  · rw [List.getElem?_set_ne hij] at h
    exact Or.inr ⟨fun heq => hij heq.symm, h⟩

end Pool

end Wavicle.Lib
