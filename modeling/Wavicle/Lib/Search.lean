import Mathlib

/-! # Binary search

Go's `sort.Search`. If the test is false up to some place and true from there on, the search returns that
place; in a list, it finds the first element that passes. -/

namespace Wavicle.Lib

/-- The loop of `sort.Search`, from the window `i` to `j`. A window of `fuel` places is empty after as many
rounds. -/
def searchFrom (f : ℕ → Bool) : ℕ → ℕ → ℕ → ℕ
  | 0, i, _ => i
  | fuel + 1, i, j =>
    if i < j then
      let h := (i + j) / 2
      if f h then searchFrom f fuel i h else searchFrom f fuel (h + 1) j
    else i

def search (n : ℕ) (f : ℕ → Bool) : ℕ := searchFrom f n 0 n

variable {f : ℕ → Bool} {n : ℕ}

theorem searchFrom_le : ∀ {fuel i j : ℕ}, i ≤ j → searchFrom f fuel i j ≤ j
  | 0, _, _, hij => hij
  | fuel + 1, i, j, hij => by
    rw [searchFrom]
    dsimp only
    split_ifs with hlt hmid
    · have hleft : searchFrom f fuel i ((i + j) / 2) ≤ (i + j) / 2 := searchFrom_le (by omega)
      omega
    · exact searchFrom_le (by omega)
    · exact hij

theorem search_le : search n f ≤ n := searchFrom_le (Nat.zero_le n)

/-- The test is false below the window and true from its end on, and so it is when the window is empty. -/
theorem searchFrom_spec (hmono : ∀ i j, i ≤ j → j < n → f i = true → f j = true) :
    ∀ {fuel i j : ℕ}, j ≤ i + fuel → i ≤ j → j ≤ n → (∀ k < i, f k = false) →
      (∀ k, j ≤ k → k < n → f k = true) →
      (∀ k < searchFrom f fuel i j, f k = false) ∧
        ∀ k, searchFrom f fuel i j ≤ k → k < n → f k = true
  | 0, i, j, hfuel, hij, hjn, hlow, hhigh => by
    have : i = j := by omega
    subst this
    exact ⟨hlow, hhigh⟩
  | fuel + 1, i, j, hfuel, hij, hjn, hlow, hhigh => by
    rw [searchFrom]
    dsimp only
    split_ifs with hlt hmid
    · refine searchFrom_spec hmono (by omega) (by omega) (by omega) hlow fun k hk hkn => ?_
      exact hmono _ k hk hkn hmid
    · refine searchFrom_spec hmono (by omega) (by omega) hjn (fun k hk => ?_) hhigh
      by_contra hk'
      exact hmid (hmono k _ (by omega) (by omega) (by simpa using hk'))
    · have : i = j := by omega
      subst this
      exact ⟨hlow, hhigh⟩

theorem search_spec (hmono : ∀ i j, i ≤ j → j < n → f i = true → f j = true) :
    (∀ k < search n f, f k = false) ∧ ∀ k, search n f ≤ k → k < n → f k = true :=
  searchFrom_spec hmono (Nat.zero_add n).ge (Nat.zero_le n) le_rfl (fun _ h => absurd h (by omega))
    fun _ h h' => absurd h' (by omega)

/-- **The search finds the first element that passes**, if all elements after one that passes do, too. -/
theorem getElem?_search {α : Type} {l : List α} {p : α → Bool}
    (hmono : l.Pairwise fun a b => p a = true → p b = true) :
    l[search l.length fun i => (l[i]?).any p]? = l.find? p := by
  have htest : ∀ i (hi : i < l.length), ((l[i]?).any p) = p l[i] := fun i hi => by
    rw [List.getElem?_eq_getElem hi, Option.any_some]
  have hsteps : ∀ i j, i ≤ j → j < l.length → ((l[i]?).any p) = true → ((l[j]?).any p) = true := by
    intro i j hij hj hi
    rw [htest i (by omega)] at hi
    rw [htest j hj]
    rcases Nat.eq_or_lt_of_le hij with rfl | hlt
    · exact hi
    · exact List.pairwise_iff_getElem.1 hmono i j _ _ hlt hi
  obtain ⟨hlow, hhigh⟩ := search_spec hsteps
  by_cases hlt : search l.length (fun i => (l[i]?).any p) < l.length
  · rw [List.getElem?_eq_getElem hlt]
    refine (List.find?_eq_some_iff_getElem.2 ⟨?_, _, hlt, rfl, fun j hj => ?_⟩).symm
    · have hfound := hhigh _ le_rfl hlt
      rwa [htest _ hlt] at hfound
    · have hmiss := hlow j hj
      rw [htest j (by omega)] at hmiss
      rw [hmiss]
      rfl
  · rw [List.getElem?_eq_none (by omega)]
    refine (List.find?_eq_none.2 fun a ha => ?_).symm
    obtain ⟨i, hi, rfl⟩ := List.mem_iff_getElem.1 ha
    have hmiss := hlow i (by omega)
    rw [htest i hi] at hmiss
    rw [hmiss]
    exact Bool.false_ne_true

end Wavicle.Lib
