import Wavicle.Lib.Interleave

/-! # What a program does, whatever the answers

`Conforms P mark Q p b` is read off the text of a program: every call it can make is in `P`, and if one of its
calls is marked, or one was before (`b`), its result is in `Q`. -/

namespace Wavicle.Lib

namespace Prog

variable {Op : Type} {Res : Op → Type} {α β σ : Type}

/-- Every call is in `P`, and the result in `Q` if a call is marked. -/
def Conforms (P : Op → Prop) (mark : Op → Bool) (Q : α → Prop) : Prog Res α → Bool → Prop
  | ret a, b => b = true → Q a
  | call op k, b => P op ∧ ∀ r, (k r).Conforms P mark Q (b || mark op)

section Rules

variable {P : Op → Prop} {mark : Op → Bool} {Q : α → Prop}

theorem conforms_pure (a : α) : (pure a : Prog Res α).Conforms P mark Q false :=
  fun h => Bool.noConfusion h

theorem conforms_pure_of {a : α} (h : Q a) (b : Bool) : (pure a : Prog Res α).Conforms P mark Q b :=
  fun _ => h

theorem Conforms.of_marked : ∀ {p : Prog Res α}, p.Conforms P mark Q true → ∀ b, p.Conforms P mark Q b
  | ret _, h, _ => fun _ => h rfl
  | call op _, ⟨hop, hk⟩, b => ⟨hop, fun r => by
      have h := hk r
      rw [Bool.true_or] at h
      exact h.of_marked (b || mark op)⟩

theorem Conforms.bind {Q : β → Prop} {f : α → Prog Res β} {b : Bool}
    (hf : ∀ a, (f a).Conforms P mark Q b) : ∀ {p : Prog Res α},
      p.CallsOnly (fun op => P op ∧ mark op = false) → (p >>= f).Conforms P mark Q b
  | ret a, _ => hf a
  | call op k, ⟨⟨hop, hmark⟩, hk⟩ => ⟨hop, fun r => by
      rw [hmark, Bool.or_false]
      exact Conforms.bind hf (hk r)⟩

theorem Conforms.bind_marked {Q : β → Prop} {f : α → Prog Res β}
    (hf : ∀ a, (f a).Conforms P mark Q true) : ∀ {p : Prog Res α},
      p.CallsOnly P → (p >>= f).Conforms P mark Q true
  | ret a, _ => hf a
  | call op k, ⟨hop, hk⟩ => ⟨hop, fun r => by
      rw [Bool.true_or]
      exact Conforms.bind_marked hf (hk r)⟩

theorem Conforms.ite {c : Prop} [Decidable c] {p q : Prog Res α} {b : Bool}
    (hp : p.Conforms P mark Q b) (hq : q.Conforms P mark Q b) :
    (if c then p else q).Conforms P mark Q b := by
  split_ifs
  exacts [hp, hq]

theorem Conforms.mono {P' : Op → Prop} {Q' : α → Prop} (hP : ∀ op, P op → P' op)
    (hQ : ∀ a, Q a → Q' a) : ∀ {p : Prog Res α} {b : Bool},
      p.Conforms P mark Q b → p.Conforms P' mark Q' b
  | ret _, _, h => fun hb => hQ _ (h hb)
  | call _ _, _, ⟨hop, hk⟩ => ⟨hP _ hop, fun r => (hk r).mono hP hQ⟩

theorem Conforms.map {Q : β → Prop} {g : α → β} : ∀ {p : Prog Res α} {b : Bool},
    p.Conforms P mark (fun a => Q (g a)) b → (p >>= fun a => pure (g a)).Conforms P mark Q b
  | ret _, _, h => h
  | call _ _, _, ⟨hop, hk⟩ => ⟨hop, fun r => (hk r).map⟩

theorem Conforms.callsOnly : ∀ {p : Prog Res α} {b : Bool}, p.Conforms P mark Q b → p.CallsOnly P
  | ret _, _, _ => trivial
  | call _ _, _, ⟨hop, hk⟩ => ⟨hop, fun r => (hk r).callsOnly⟩

end Rules

theorem callsOnly_true : ∀ p : Prog Res α, p.CallsOnly fun _ => True
  | ret _ => trivial
  | call _ k => ⟨trivial, fun r => callsOnly_true (k r)⟩

theorem CallsOnly.mono {P P' : Op → Prop} (h : ∀ op, P op → P' op) : ∀ {p : Prog Res α},
    p.CallsOnly P → p.CallsOnly P'
  | ret _, _ => trivial
  | call _ _, ⟨hop, hk⟩ => ⟨h _ hop, fun r => (hk r).mono h⟩

/-! ### Runs -/

variable (step : σ → (op : Op) → Res op × σ)

def trace : Prog Res α → σ → List (Event Res)
  | ret _, _ => []
  | call op k, s => ⟨op, (step s op).1⟩ :: (k (step s op).1).trace (step s op).2

variable {step}

theorem Conforms.run {P : Op → Prop} {mark : Op → Bool} {Q : α → Prop} :
    ∀ {p : Prog Res α} {b : Bool}, p.Conforms P mark Q b → ∀ s : σ,
      (b = true ∨ ∃ e ∈ p.trace step s, mark e.1 = true) → Q (p.run step s).1
  | ret _, _, h, _, hmark => by
    rcases hmark with hb | ⟨e, he, -⟩
    · exact h hb
    · cases he
  | call op _, b, ⟨_, hk⟩, s, hmark => by
    refine (hk (step s op).1).run (step s op).2 ?_
    rcases hmark with hb | ⟨e, he, hm⟩
    · exact Or.inl (by rw [hb, Bool.true_or])
    · rcases List.mem_cons.1 he with rfl | he
      · exact Or.inl (by rw [hm, Bool.or_true])
      · exact Or.inr ⟨e, he, hm⟩

end Prog

end Wavicle.Lib
