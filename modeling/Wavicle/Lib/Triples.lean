import Wavicle.Lib.Conforms

/-! # Programs that keep an invariant

`Keeps step I p Q`: from a state with `I` the program `p` ends in a state with `I`, and with a result in `Q`. -/

namespace Wavicle.Lib

namespace Prog

variable {Op : Type} {Res : Op → Type} {α β σ : Type}

/-- Runs keep `I` and have their results in `Q`. -/
def Keeps (step : σ → (op : Op) → Res op × σ) (I : σ → Prop) (p : Prog Res α) (Q : α → Prop) : Prop :=
  ∀ s, I s → I (p.run step s).2 ∧ Q (p.run step s).1

variable {step : σ → (op : Op) → Res op × σ} {I : σ → Prop}

variable {Q : α → Prop} {f : α → Prog Res β} {p : Prog Res α} {s : σ} {R : α → σ → Prop}

theorem keeps_pure {a : α} (h : Q a) : Keeps step I (pure a) Q := fun _ hs => ⟨hs, h⟩

theorem Keeps.bind {R : β → Prop} (hp : Keeps step I p Q) (hf : ∀ a, Q a → Keeps step I (f a) R) :
    Keeps step I (p >>= f) R := by
  intro s hs
  obtain ⟨hs', ha⟩ := hp s hs
  rw [run_bind]
  exact hf _ ha _ hs'

theorem Keeps.mono {Q' : α → Prop} (hp : Keeps step I p Q) (h : ∀ a, Q a → Q' a) : Keeps step I p Q' :=
  fun s hs => ⟨(hp s hs).1, h _ (hp s hs).2⟩

theorem keeps_of_callsOnly {P : Op → Prop} (h : ∀ s op, I s → P op → I (step s op).2) :
    ∀ {p : Prog Res α}, p.CallsOnly P → Keeps step I p fun _ => True
  | ret _, _ => fun _ hs => ⟨hs, trivial⟩
  | call op _, ⟨hop, hk⟩ => fun s hs => keeps_of_callsOnly h (hk _) (step s op).2 (h s op hs hop)

/-- The run from `s` ends with a result and a state in `R`. -/
def Ends (step : σ → (op : Op) → Res op × σ) (p : Prog Res α) (s : σ) (R : α → σ → Prop) : Prop :=
  R (p.run step s).1 (p.run step s).2

theorem ends_pure {a : α} (h : R a s) : Ends step (pure a) s R := h

theorem Ends.bind {R' : β → σ → Prop} (hp : Ends step p s R)
    (hf : ∀ a t, R a t → Ends step (f a) t R') : Ends step (p >>= f) s R' := by
  unfold Ends
  rw [run_bind]
  exact hf _ _ hp

theorem Ends.mono {R' : α → σ → Prop} (hp : Ends step p s R) (h : ∀ a t, R a t → R' a t) :
    Ends step p s R' := h _ _ hp

theorem Keeps.ends (hp : Keeps step I p Q) (hs : I s) : Ends step p s fun a t => Q a ∧ I t :=
  ⟨(hp s hs).2, (hp s hs).1⟩

/-! ### Runs that pass a test -/

/-- Every call of the run from `s` passes the test `ok`, which sees the state before the call. -/
def passes (step : σ → (op : Op) → Res op × σ) (ok : σ → Op → Bool) : Prog Res α → σ → Bool
  | ret _, _ => true
  | call op k, s => ok s op && (k (step s op).1).passes step ok (step s op).2

theorem passes_call (step : σ → (op : Op) → Res op × σ) (ok : σ → Op → Bool) (op : Op)
    (k : Res op → Prog Res α) (s : σ) :
    (call op k).passes step ok s = (ok s op && (k (step s op).1).passes step ok (step s op).2) := rfl

theorem passes_bind {β : Type} (step : σ → (op : Op) → Res op × σ) (ok : σ → Op → Bool)
    (f : α → Prog Res β) : ∀ (p : Prog Res α) (s : σ), (p >>= f).passes step ok s =
      (p.passes step ok s && (f (p.run step s).1).passes step ok (p.run step s).2)
  | ret _, _ => (Bool.true_and _).symm
  | call op k, s => by
    have hrest := passes_bind step ok f (k (step s op).1) (step s op).2
    rw [call_bind, passes_call, passes_call, run_call, hrest, Bool.and_assoc]

/-- If every call of the run from `s` has `ok`, it ends with a result and a state in `R`. -/
def EndsIf (step : σ → (op : Op) → Res op × σ) (ok : σ → Op → Bool) (p : Prog Res α) (s : σ)
    (R : α → σ → Prop) : Prop :=
  p.passes step ok s = true → Ends step p s R

variable {ok : σ → Op → Bool}

theorem Ends.endsIf (h : Ends step p s R) : EndsIf step ok p s R := fun _ => h

theorem EndsIf.bind {R' : β → σ → Prop} (hp : EndsIf step ok p s R)
    (hf : ∀ a t, R a t → EndsIf step ok (f a) t R') : EndsIf step ok (p >>= f) s R' := by
  intro h
  rw [passes_bind] at h
  obtain ⟨h₁, h₂⟩ := Bool.and_eq_true_iff.1 h
  have hr := hp h₁
  unfold Ends
  rw [run_bind]
  exact hf _ _ hr h₂

theorem EndsIf.mono {R' : α → σ → Prop} (hp : EndsIf step ok p s R) (h : ∀ a t, R a t → R' a t) :
    EndsIf step ok p s R' := fun hpass => h _ _ (hp hpass)

theorem endsIf_ask {op : Op} {R : Res op → σ → Prop}
    (h : ok s op = true → R (step s op).1 (step s op).2) : EndsIf step ok (ask op) s R :=
  fun hpass => h (Bool.and_eq_true_iff.1 hpass).1

end Prog

end Wavicle.Lib
