import Mathlib

/-! # Registers that keep the newest value

Values with a clock are offered in any order. One is dropped if the register holds one with a higher clock, or
one of which it is a duplicate. -/

namespace Wavicle.Lib

variable {α : Type} (clock : α → ℕ) (dup : α → α → Bool)

/-- The register after `a` has been offered; `dup old a` says that `a` is a duplicate of `old`. -/
def offer : Option α → α → Option α
  | none, a => some a
  | some old, a => if clock a < clock old ∨ dup old a then some old else some a

variable {clock dup}

theorem offer_some (old a : α) : offer clock dup (some old) a =
    if clock a < clock old ∨ dup old a then some old else some a := rfl

theorem offer_eq (r : Option α) (a : α) : offer clock dup r a = some a ∨ offer clock dup r a = r := by
  cases r with
  | none => exact Or.inl rfl
  | some old =>
    rw [offer_some]
    split_ifs
    · exact Or.inr rfl
    · exact Or.inl rfl

theorem mem_of_foldl_offer : ∀ (l : List α) (r : Option α) {y : α},
    l.foldl (offer clock dup) r = some y → r = some y ∨ y ∈ l
  | [], _, _, h => Or.inl h
  | a :: l, r, y, h => by
    rcases mem_of_foldl_offer l (offer clock dup r a) h with hy | hy
    · rcases offer_eq r a with ha | ha
      · obtain rfl := Option.some.inj (ha.symm.trans hy)
        exact Or.inr (.head _)
      · exact Or.inl (ha.symm.trans hy)
    · exact Or.inr (.tail _ hy)

theorem foldl_offer_stays {y : α} : ∀ {l : List α},
    (∀ x ∈ l, clock x < clock y ∨ dup y x = true) → l.foldl (offer clock dup) (some y) = some y
  | [], _ => rfl
  | x :: l, h => by
    have hx : offer clock dup (some y) x = some y := if_pos (h x (.head _))
    rw [List.foldl_cons, hx]
    exact foldl_offer_stays (List.forall_mem_cons.1 h).2

/-- **The register ends with a value like the newest one**, in whatever order the values are offered,
if only values like it make it a duplicate, and every value that is not older than one of those is
like it, too. -/
theorem foldl_offer_like {order : List α} {m : α} (hm : m ∈ order)
    (hmax : ∀ a ∈ order, a ≠ m → clock a < clock m) {Like : α → Prop} (hlike : Like m)
    (hdup : ∀ x ∈ order, dup x m = true → Like x)
    (hafter : ∀ x ∈ order, Like x → x ≠ m → ∀ a ∈ order, clock x ≤ clock a → Like a) :
    ∃ y ∈ order, order.foldl (offer clock dup) none = some y ∧ Like y := by
  -- what is in the register once `m` has been offered
  have hlater : ∀ (l : List α) (y : α), l ⊆ order → y ∈ order → Like y →
      ∃ z ∈ order, l.foldl (offer clock dup) (some y) = some z ∧ Like z := by
    intro l
    induction l with
    | nil => exact fun y _ hy hlike => ⟨y, hy, rfl, hlike⟩
    | cons a l ih =>
      intro y hsub hy hlikey
      have ha : a ∈ order := hsub (.head _)
      rw [List.foldl_cons, offer_some]
      split_ifs with hkeep
      · exact ih y (fun x hx => hsub (.tail _ hx)) hy hlikey
      · refine ih a (fun x hx => hsub (.tail _ hx)) ha ?_
        have hle : clock y ≤ clock a := not_lt.1 fun hlt => hkeep (Or.inl hlt)
        by_cases hym : y = m
        · obtain rfl : a = m := by
            by_contra hne
            exact absurd (hmax a ha hne) (not_lt.2 (hym ▸ hle))
          exact hlike
        · exact hafter y hy hlikey hym a ha hle
  obtain ⟨l₁, l₂, rfl⟩ := List.append_of_mem hm
  have hsub : l₂ ⊆ l₁ ++ m :: l₂ := fun x hx => List.mem_append_right _ (.tail _ hx)
  rw [List.foldl_append, List.foldl_cons]
  cases hr : l₁.foldl (offer clock dup) none with
  | none => exact hlater l₂ m hsub hm hlike
  | some x =>
    have hx : x ∈ l₁ ++ m :: l₂ :=
      List.mem_append_left _ ((mem_of_foldl_offer l₁ none hr).resolve_left (by simp))
    have hold : ¬ clock m < clock x := by
      intro hlt
      by_cases hxm : x = m
      · exact absurd hlt (by simp [hxm])
      · exact absurd hlt (not_lt.2 (hmax x hx hxm).le)
    rw [offer_some]
    split_ifs with hkeep
    · exact hlater l₂ x hsub hx (hdup x hx (hkeep.resolve_left hold))
    · exact hlater l₂ m hsub hm hlike

theorem foldl_offer_overtaken {a b : α} {hi lo : List α} (hab : clock a ≤ clock b)
    (hnot : dup a b = false) (hhi : ∀ x ∈ hi, dup a x = true) (hlo : ∀ x ∈ lo, clock x < clock b) :
    (hi ++ b :: lo).foldl (offer clock dup) (some a) = some b := by
  have hb : offer clock dup (some a) b = some b := if_neg (by simp [hnot, hab])
  rw [List.foldl_append, List.foldl_cons, foldl_offer_stays fun x hx => Or.inr (hhi x hx), hb]
  exact foldl_offer_stays fun x hx => Or.inl (hlo x hx)

end Wavicle.Lib
