import Mathlib

/-! # Programs that call a service

A `Prog Res α` issues operations `op : Op`, reads the answer `Res op` of each, and ends with a result in `α`;
`run` interprets it against a service `step : σ → (op : Op) → Res op × σ`. -/

namespace Wavicle.Lib

/-- A program over the operations `Op`, operation `op` being answered in `Res op`. -/
inductive Prog {Op : Type} (Res : Op → Type) (α : Type) : Type where
  | ret (a : α)
  | call (op : Op) (k : Res op → Prog Res α)

namespace Prog

variable {Op : Type} {Res : Op → Type} {α β σ : Type}

def bind : Prog Res α → (α → Prog Res β) → Prog Res β
  | ret a, f => f a
  | call op k, f => call op fun r => (k r).bind f

instance : Monad (Prog Res) where
  pure := ret
  bind := bind

def ask (op : Op) : Prog Res (Res op) := call op ret

def run (step : σ → (op : Op) → Res op × σ) : Prog Res α → σ → α × σ
  | ret a, s => (a, s)
  | call op k, s => (k (step s op).1).run step (step s op).2

variable (step : σ → (op : Op) → Res op × σ)

@[simp] theorem run_ret (a : α) (s : σ) : (ret a : Prog Res α).run step s = (a, s) := rfl

@[simp] theorem run_pure (a : α) (s : σ) : (pure a : Prog Res α).run step s = (a, s) := rfl

@[simp] theorem run_call (op : Op) (k : Res op → Prog Res α) (s : σ) :
    (call op k).run step s = (k (step s op).1).run step (step s op).2 := rfl

@[simp] theorem run_ask (op : Op) (s : σ) : (ask op : Prog Res (Res op)).run step s = step s op :=
  rfl

theorem run_bind' (f : α → Prog Res β) : ∀ (p : Prog Res α) (s : σ),
    (p.bind f).run step s = (f (p.run step s).1).run step (p.run step s).2
  | ret _, _ => rfl
  | call op k, s => run_bind' f (k (step s op).1) (step s op).2

@[simp] theorem run_bind (p : Prog Res α) (f : α → Prog Res β) (s : σ) :
    (p >>= f).run step s = (f (p.run step s).1).run step (p.run step s).2 :=
  run_bind' step f p s

/-- **Invariant rule**: what every call preserves, every run preserves. -/
theorem run_preserves {I : σ → Prop} (h : ∀ s op, I s → I (step s op).2) :
    ∀ (p : Prog Res α) (s : σ), I s → I (p.run step s).2
  | ret _, _, hs => hs
  | call op k, s, hs => run_preserves h (k (step s op).1) _ (h s op hs)

/-! ### Programs that only read -/

def eval (ans : (op : Op) → Res op) : Prog Res α → α
  | ret a => a
  | call op k => (k (ans op)).eval ans

variable (ans : (op : Op) → Res op)

@[simp] theorem eval_ret (a : α) :
    (ret a : Prog Res α).eval ans = a := rfl

@[simp] theorem eval_pure (a : α) :
    (pure a : Prog Res α).eval ans = a := rfl

@[simp] theorem eval_ask (op : Op) :
    (ask op : Prog Res (Res op)).eval ans = ans op := rfl

theorem eval_bind' (ans : (op : Op) → Res op) (f : α → Prog Res β) : ∀ p : Prog Res α,
    (p.bind f).eval ans = (f (p.eval ans)).eval ans
  | ret _ => rfl
  | call op k => eval_bind' ans f (k (ans op))

@[simp] theorem eval_bind (ans : (op : Op) → Res op) (p : Prog Res α) (f : α → Prog Res β) :
    (p >>= f).eval ans = (f (p.eval ans)).eval ans :=
  eval_bind' ans f p

/-- Every call the program can make is in `P`. -/
def CallsOnly (P : Op → Prop) : Prog Res α → Prop
  | ret _ => True
  | call op k => P op ∧ ∀ r, (k r).CallsOnly P

theorem callsOnly_pure (P : Op → Prop) (a : α) : (pure a : Prog Res α).CallsOnly P := trivial

variable {P : Op → Prop}

theorem callsOnly_ask {op : Op} (h : P op) :
    (ask op : Prog Res (Res op)).CallsOnly P := ⟨h, fun _ => trivial⟩

theorem callsOnly_bind {f : α → Prog Res β} (hf : ∀ a, (f a).CallsOnly P) :
    ∀ {p : Prog Res α}, p.CallsOnly P → (p >>= f).CallsOnly P
  | ret a, _ => hf a
  | call _ _, ⟨hop, hk⟩ => ⟨hop, fun r => callsOnly_bind hf (hk r)⟩

/-- **Reading is looking at a view**: if the calls in `P` are answered from a view of the state
which they leave alone, so is every program made of them. -/
theorem run_eq_eval {ν : Type} {I : σ → Prop} {view : σ → ν} {ans : ν → (op : Op) → Res op}
    (h : ∀ s op, I s → P op → (step s op).1 = ans (view s) op ∧ view (step s op).2 = view s ∧ I (step s op).2) :
    ∀ (p : Prog Res α) (s : σ), I s → p.CallsOnly P →
      (p.run step s).1 = p.eval (ans (view s)) ∧ view (p.run step s).2 = view s ∧
        I (p.run step s).2
  | ret _, _, hs, _ => ⟨rfl, rfl, hs⟩
  | call op k, s, hs, ⟨hop, hk⟩ => by
    obtain ⟨hans, hview, hs'⟩ := h s op hs hop
    obtain ⟨hres, hview', hs''⟩ := run_eq_eval h (k (step s op).1) (step s op).2 hs' (hk _)
    refine ⟨?_, hview'.trans hview, hs''⟩
    rw [run_call, hres, hview, hans]
    rfl

end Prog

end Wavicle.Lib
