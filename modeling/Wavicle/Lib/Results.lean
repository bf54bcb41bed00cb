import Wavicle.Lib.Prog

/-! # What a program returns

`Returns Q p`: whatever the calls are answered, the result of `p` is in `Q`. -/

namespace Wavicle.Lib

namespace Prog

variable {Op : Type} {Res : Op → Type} {α β σ : Type}

/-- All results are in `Q`. -/
def Returns (Q : α → Prop) : Prog Res α → Prop
  | ret a => Q a
  | call _ k => ∀ r, (k r).Returns Q

variable {Q : α → Prop}

theorem returns_pure {a : α} (h : Q a) : (pure a : Prog Res α).Returns Q := h

theorem Returns.bind {R : β → Prop} {f : α → Prog Res β} (hf : ∀ a, Q a → (f a).Returns R) :
    ∀ {p : Prog Res α}, p.Returns Q → (p >>= f).Returns R
  | ret a, ha => hf a ha
  | call _ _, hk => fun r => Returns.bind hf (hk r)

theorem returns_bind {R : β → Prop} {f : α → Prog Res β} (hf : ∀ a, (f a).Returns R) :
    ∀ {p : Prog Res α}, (p >>= f).Returns R
  | ret a => hf a
  | call _ k => fun r => @returns_bind R f hf (k r)

theorem Returns.run (step : σ → (op : Op) → Res op × σ) :
    ∀ {p : Prog Res α}, p.Returns Q → ∀ s, Q (p.run step s).1
  | ret _, h, _ => h
  | call op _, h, s => Returns.run step (h (step s op).1) (step s op).2

end Prog

end Wavicle.Lib
