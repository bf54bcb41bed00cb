import Mathlib

/-! # Go maps

A Go map is an association list with distinct keys; the order of the list is the order in which a
`range` loop visits the entries. These are the laws of `lookup` without the dependent types of
`AList`. -/

namespace Wavicle.Lib

open List

/-- A finite map from `κ` to `α`. -/
abbrev GoMap (κ α : Type) := AList fun _ : κ => α

namespace GoMap

variable {κ α : Type} [DecidableEq κ]

theorem lookup_insert (m : GoMap κ α) (k k' : κ) (v : α) :
    (m.insert k v).lookup k' = if k' = k then some v else m.lookup k' := by
  split_ifs with h
  · subst h
    exact AList.lookup_insert m
  · exact AList.lookup_insert_ne h

theorem lookup_erase (m : GoMap κ α) (k k' : κ) :
    (m.erase k).lookup k' = if k' = k then none else m.lookup k' := by
  split_ifs with h
  · subst h
    exact AList.lookup_erase _ m
  · exact AList.lookup_erase_ne h

variable {m : GoMap κ α} {k : κ}

theorem lookup_eq_some {v : α} : m.lookup k = some v ↔ (⟨k, v⟩ : Σ _ : κ, α) ∈ m.entries :=
  AList.mem_lookup_iff

/-! ### Replacing the values -/

def mapValues {β : Type} (f : α → β) (m : GoMap κ α) : GoMap κ β :=
  ⟨m.entries.map fun e => ⟨e.1, f e.2⟩, by
    have h := m.nodupKeys
    unfold List.NodupKeys List.keys at h ⊢
    rw [map_map]
    exact h⟩

theorem lookup_mapValues {β : Type} (f : α → β) (m : GoMap κ α) (k : κ) :
    (m.mapValues f).lookup k = (m.lookup k).map f := by
  refine Option.ext fun v => ?_
  rw [lookup_eq_some, Option.map_eq_some_iff]
  constructor
  · intro h
    obtain ⟨⟨k', v'⟩, hmem, heq⟩ := mem_map.1 h
    obtain ⟨rfl, hv⟩ := Sigma.mk.inj heq
    exact ⟨v', lookup_eq_some.2 hmem, eq_of_heq hv⟩
  · rintro ⟨v', hv', rfl⟩
    exact mem_map.2 ⟨⟨k, v'⟩, lookup_eq_some.1 hv', rfl⟩

/-! ### Sums over the entries -/

variable (g : κ → α → ℤ)

def total (m : GoMap κ α) : ℤ := (m.entries.map fun e => g e.1 e.2).sum

omit [DecidableEq κ] in
@[simp] theorem total_empty : total g (∅ : GoMap κ α) = 0 := rfl

theorem total_erase {v : α} (h : m.lookup k = some v) :
    total g (m.erase k) = total g m - g k v := by
  have hmem : k ∈ m.entries.keys :=
    mem_keys_of_mem (lookup_eq_some.1 h : (⟨k, v⟩ : Σ _ : κ, α) ∈ m.entries)
  obtain ⟨v', l₁, l₂, -, hm, hk⟩ := exists_of_kerase hmem
  have hv : m.lookup k = some v' := lookup_eq_some.2 (by rw [hm]; simp)
  obtain rfl := Option.some.inj (h.symm.trans hv)
  have hentries : (m.erase k).entries = l₁ ++ l₂ := hk
  rw [total, total, hentries, hm]
  simp
  ring

theorem total_insert (m : GoMap κ α) (k : κ) (v : α) :
    total g (m.insert k v) = total g (m.erase k) + g k v := by
  have hentries : (m.insert k v).entries = ⟨k, v⟩ :: (m.erase k).entries := rfl
  rw [total, hentries, map_cons, sum_cons, add_comm]
  rfl

theorem erase_of_lookup_eq_none (h : m.lookup k = none) : m.erase k = m := by
  apply AList.ext
  exact kerase_of_notMem_keys (AList.lookup_eq_none.1 h)

end GoMap

end Wavicle.Lib
