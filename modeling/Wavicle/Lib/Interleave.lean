import Wavicle.Lib.Prog

/-! # Programs in an environment

Between two calls of a program others may change the state, depending on the calls so far: `env history s s'`. -/

namespace Wavicle.Lib

namespace Prog

variable {Op : Type} {Res : Op → Type} {α β σ : Type}

@[simp] theorem pure_bind' (a : α) (f : α → Prog Res β) : (pure a >>= f) = f a := rfl

@[simp] theorem ret_bind (a : α) (f : α → Prog Res β) : (ret a >>= f) = f a := rfl

@[simp] theorem call_bind (op : Op) (k : Res op → Prog Res α) (f : α → Prog Res β) :
    (call op k >>= f) = call op fun r => k r >>= f := rfl

@[simp] theorem ask_bind (op : Op) (f : Res op → Prog Res β) : (ask op >>= f) = call op f := rfl

abbrev Event (Res : Op → Type) := Σ op, Res op

variable (step : σ → (op : Op) → Res op × σ)

/-- The result of a program that ends with its next call, and the state after that call. -/
def afterCall : Prog Res α → σ → Option (α × σ)
  | ret _, _ => none
  | call op k, s =>
    match k (step s op).1 with
    | ret a => some (a, (step s op).2)
    | call _ _ => none

variable (env : List (Event Res) → σ → σ → Prop) (post : List (Event Res) → α → σ → Prop)

/-- Whatever the environment does, the program ends with `post`. -/
def Outlasts : Prog Res α → List (Event Res) → σ → Prop
  | ret a, history, s => post history a s
  | call op k, history, s => ∀ s', Relation.ReflTransGen (env history) s s' →
    Outlasts (k (step s' op).1) (history ++ [⟨op, (step s' op).1⟩]) (step s' op).2

variable {step env post}

variable {history : List (Event Res)}

theorem Outlasts.interfere {op : Op} {k : Res op → Prog Res α} {s s' : σ}
    (h : Outlasts step env post (call op k) history s) (he : env history s s') :
    Outlasts step env post (call op k) history s' :=
  fun s'' hs'' => h s'' (.head he hs'')

theorem Outlasts.advance {op : Op} {k : Res op → Prog Res α} {s : σ}
    (h : Outlasts step env post (call op k) history s) :
    Outlasts step env post (k (step s op).1) (history ++ [⟨op, (step s op).1⟩]) (step s op).2 :=
  h s .refl

theorem Outlasts.afterCall {p : Prog Res α} {s : σ} (h : Outlasts step env post p history s)
    {r : α × σ} (hr : p.afterCall step s = some r) : ∃ e, post (history ++ [e]) r.1 r.2 := by
  cases p with
  | ret a => cases hr
  | call op k =>
    have hnext := h.advance
    unfold Prog.afterCall at hr
    simp only at hr
    split at hr
    · rename_i a ha
      obtain rfl := Option.some.inj hr
      rw [ha] at hnext
      exact ⟨_, hnext⟩
    · cases hr

end Prog

end Wavicle.Lib
