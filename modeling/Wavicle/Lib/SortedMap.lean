import Mathlib

/-! # Maps as key-sorted lists

A finite map is the list of its entries in increasing key order. `put` keeps the order, so two maps
with the same entries built by `put` are the same list; `List.lookup` reads an entry. -/

namespace Wavicle.Lib.SortedMap

open List

variable {κ α : Type} [LT κ]

section Put

variable [DecidableEq κ] [DecidableLT κ]

/-- The map with this entry, in its place by the key. -/
def put (k : κ) (v : α) : List (κ × α) → List (κ × α)
  | [] => [(k, v)]
  | (k', v') :: m =>
    if k < k' then (k, v) :: (k', v') :: m
    else if k = k' then (k, v) :: m
    else (k', v') :: put k v m

theorem mem_put {k : κ} {v : α} {e : κ × α} : ∀ {m : List (κ × α)}, e ∈ put k v m → e = (k, v) ∨ e ∈ m
  | [], h => Or.inl (mem_singleton.1 h)
  | (k', v') :: m, h => by
    unfold put at h
    split_ifs at h with hlt heq
    · exact mem_cons.1 h
    · exact (mem_cons.1 h).imp_right (mem_cons_of_mem _)
    · rcases mem_cons.1 h with rfl | h
      · exact Or.inr (.head _)
      · exact (mem_put h).imp_right (mem_cons_of_mem _)

section Lookup

variable [BEq κ] [LawfulBEq κ]

@[simp] theorem lookup_put_self (k : κ) (v : α) : ∀ m : List (κ × α), (put k v m).lookup k = some v
  | [] => by simp [put]
  | (k', v') :: m => by
    unfold put
    split_ifs with hlt heq
    · simp
    · simp
    · rw [lookup_cons, beq_eq_false_iff_ne.2 heq]
      exact lookup_put_self k v m

theorem lookup_put_of_ne {k k₀ : κ} (h : k₀ ≠ k) (v : α) :
    ∀ m : List (κ × α), (put k v m).lookup k₀ = m.lookup k₀
  | [] => by simp [put, h]
  | (k', v') :: m => by
    have hne : (k₀ == k) = false := beq_eq_false_iff_ne.2 h
    unfold put
    split_ifs with hlt heq
    · rw [lookup_cons, hne]
    · subst heq
      simp [lookup_cons, hne]
    · rw [lookup_cons, lookup_cons, lookup_put_of_ne h v m]

theorem lookup_put (k k₀ : κ) (v : α) (m : List (κ × α)) :
    (put k v m).lookup k₀ = if k₀ = k then some v else m.lookup k₀ := by
  split_ifs with h
  · rw [h, lookup_put_self]
  · exact lookup_put_of_ne h v m

end Lookup

end Put

/-! ### Maps in order -/

/-- The keys increase. -/
def Sorted (m : List (κ × α)) : Prop := m.Pairwise fun e e' => e.1 < e'.1

section Irreflexive

variable [Std.Irrefl (α := κ) (· < ·)]

theorem Sorted.nodup {m : List (κ × α)} (h : Sorted m) : (m.map Prod.fst).Nodup := by
  refine pairwise_map.2 (h.imp fun {e e'} hlt heq => ?_)
  rw [heq] at hlt
  exact Std.Irrefl.irrefl _ hlt

variable [BEq κ] [LawfulBEq κ]

theorem lookup_eq_none_of_lt {k : κ} : ∀ {m : List (κ × α)}, (∀ e ∈ m, k < e.1) → m.lookup k = none
  | [], _ => rfl
  | (k', v) :: m, h => by
    have hne : (k == k') = false := beq_eq_false_iff_ne.2 fun heq =>
      Std.Irrefl.irrefl k' (heq ▸ h (k', v) (.head _))
    rw [lookup_cons, hne]
    exact lookup_eq_none_of_lt (forall_mem_cons.1 h).2

theorem Sorted.mem_iff {k : κ} {v : α} : ∀ {m : List (κ × α)}, Sorted m →
    ((k, v) ∈ m ↔ m.lookup k = some v)
  | [], _ => by simp
  | (k', v') :: m, h => by
    obtain ⟨hhead, htail⟩ := pairwise_cons.1 h
    rw [mem_cons, lookup_cons, Prod.mk.injEq]
    by_cases hk : k = k'
    · subst hk
      have hnot : (k, v) ∉ m := fun hmem => Std.Irrefl.irrefl k (hhead _ hmem)
      simp [hnot, eq_comm]
    · rw [beq_eq_false_iff_ne.2 hk, Sorted.mem_iff htail]
      simp [hk]

end Irreflexive

section Linear

variable [Std.Trichotomous (α := κ) (· < ·)] [Trans (α := κ) (· < ·) (· < ·) (· < ·)]

theorem Sorted.put [DecidableEq κ] [DecidableLT κ] (k : κ) (v : α) :
    ∀ {m : List (κ × α)}, Sorted m → Sorted (put k v m)
  | [], _ => pairwise_singleton _ _
  | (k', v') :: m, h => by
    obtain ⟨hhead, htail⟩ := pairwise_cons.1 h
    unfold SortedMap.put
    split_ifs with hlt heq
    · refine pairwise_cons.2 ⟨fun e he => ?_, h⟩
      rcases mem_cons.1 he with rfl | he
      · exact hlt
      · exact Trans.trans hlt (hhead e he)
    · exact pairwise_cons.2 ⟨heq ▸ hhead, htail⟩
    · refine pairwise_cons.2 ⟨fun e he => ?_, Sorted.put k v htail⟩
      rcases mem_put he with rfl | he
      · by_contra hno
        exact heq (Std.Trichotomous.trichotomous (r := (· < ·)) k k' hlt hno)
      · exact hhead e he

/-- **Two maps with the same entries are one.** -/
theorem Sorted.ext [Std.Irrefl (α := κ) (· < ·)] [BEq κ] [LawfulBEq κ] :
    ∀ {m m' : List (κ × α)}, Sorted m → Sorted m' → (∀ k, m.lookup k = m'.lookup k) → m = m'
  | [], [], _, _, _ => rfl
  | [], (k, v) :: m', _, _, h => by simpa using h k
  | (k, v) :: m, [], _, _, h => by simpa using h k
  | (k, v) :: m, (k', v') :: m', hm, hm', h => by
    obtain ⟨hhead, htail⟩ := pairwise_cons.1 hm
    obtain ⟨hhead', htail'⟩ := pairwise_cons.1 hm'
    -- the smaller of the two first keys would have an entry on one side only
    have hlow : ∀ {j j' : κ} {u u' : α} {l l' : List (κ × α)}, (∀ e ∈ l', j' < e.1) → j < j' →
        ((j, u) :: l).lookup j ≠ ((j', u') :: l').lookup j := by
      intro j j' u u' l l' hl' hlt heq
      have hnone : ((j', u') :: l').lookup j = none := lookup_eq_none_of_lt fun e he => by
        rcases mem_cons.1 he with rfl | he
        · exact hlt
        · exact Trans.trans hlt (hl' e he)
      rw [hnone] at heq
      simp at heq
    have hkk : k = k' := by
      refine Std.Trichotomous.trichotomous (r := (· < ·)) k k' (fun hlt => ?_) fun hlt => ?_
      · exact hlow hhead' hlt (h k)
      · exact hlow hhead hlt (h k').symm
    subst hkk
    have hv := h k
    simp only [lookup_cons, beq_self_eq_true, Option.some.injEq] at hv
    subst hv
    congr 1
    refine Sorted.ext htail htail' fun j => ?_
    by_cases hj : j = k
    · rw [hj, lookup_eq_none_of_lt hhead, lookup_eq_none_of_lt hhead']
    · have hjk := h j
      rwa [lookup_cons, lookup_cons, beq_eq_false_iff_ne.2 hj] at hjk

end Linear

end Wavicle.Lib.SortedMap
