import Wavicle.Engine.ProofCache

/-! # What a proof cache holds

The cache finds a proof under the key with which it was put there, if it finds one. So a property `P` of keys
and proofs that holds of what is put into the cache holds of what is found in it. -/

namespace Wavicle.Engine

open Lib Wavicle.Core Storage

variable {ι H : Type} [DecidableEq H] {P : H → MaterializedProof ι H → Prop}

namespace CacheShard

/-- The elements of a shard have the keys that lead to them, and `P`. -/
structure Holds (P : H → MaterializedProof ι H → Prop) (s : CacheShard ι H) : Prop where
  next : ∀ x ∈ s.lru.elems, x.1 < s.lru.next
  fresh : ∀ key elem, s.entries.lookup key = some elem → elem < s.lru.next
  keyed : ∀ key elem, s.entries.lookup key = some elem → ∀ x ∈ s.lru.elems, x.1 = elem → x.2.1 = key
  good : ∀ x ∈ s.lru.elems, P x.2.1 x.2.2

variable {s : CacheShard ι H}

theorem holds_new (capacity : ℕ) : Holds P (⟨∅, .new, capacity⟩ : CacheShard ι H) where
  next := List.forall_mem_nil _
  fresh key elem h := by cases (AList.lookup_empty key).symm.trans h
  keyed _ _ _ := List.forall_mem_nil _
  good := List.forall_mem_nil _

theorem Holds.sub {s' : CacheShard ι H} (h : s.Holds P) (hnext : s'.lru.next = s.lru.next)
    (helems : ∀ x ∈ s'.lru.elems, x ∈ s.lru.elems)
    (hentries : ∀ key elem, s'.entries.lookup key = some elem → s.entries.lookup key = some elem) :
    s'.Holds P where
  next x hx := hnext ▸ h.next x (helems x hx)
  fresh key elem hk := hnext ▸ h.fresh key elem (hentries key elem hk)
  keyed key elem hk x hx := h.keyed key elem (hentries key elem hk) x (helems x hx)
  good x hx := h.good x (helems x hx)

variable {key : H} {proof : MaterializedProof ι H}

theorem Holds.of_find (h : s.Holds P) {elem : ℕ} (hf : s.find key = some (elem, proof)) : P key proof := by
  obtain ⟨e, he, hv⟩ := Option.bind_eq_some_iff.1 hf
  obtain ⟨entry, hentry, heq⟩ := Option.map_eq_some_iff.1 hv
  obtain ⟨rfl, rfl⟩ := Prod.mk.inj heq
  obtain ⟨x, hx, rfl⟩ := Option.map_eq_some_iff.1 hentry
  have hmem := List.mem_of_find?_eq_some hx
  have hkey := h.keyed key e he x hmem (by simpa using List.find?_some hx)
  exact hkey ▸ h.good x hmem

theorem Holds.moveToFront (h : s.Holds P) (elem : ℕ) : Holds P { s with lru := s.lru.moveToFront elem } :=
  h.sub rfl (fun _ hx => (s.lru.perm_moveToFront elem).mem_iff.1 hx) fun _ _ hk => hk

theorem Holds.makeRoom (h : s.Holds P) : s.makeRoom.Holds P := by
  unfold CacheShard.makeRoom
  split_ifs
  · cases s.lru.back with
    | none => exact h
    | some last =>
      refine h.sub rfl (fun x hx => (LinkedList.mem_remove.1 hx).1) fun key elem hk => ?_
      rw [GoMap.lookup_erase] at hk
      split_ifs at hk
      exact hk
  · exact h

theorem Holds.setValue (h : s.Holds P) {elem : ℕ} (hk : s.entries.lookup key = some elem)
    (hproof : P key proof) : Holds P { s with lru := s.lru.setValue elem (key, proof) } := by
  have hmem : ∀ x ∈ (s.lru.setValue elem (key, proof)).elems,
      (x = (elem, key, proof) ∧ ∃ y ∈ s.lru.elems, y.1 = elem) ∨ x ∈ s.lru.elems := by
    intro x hx
    obtain ⟨y, hy, rfl⟩ := List.mem_map.1 hx
    by_cases he : y.1 = elem
    · exact Or.inl ⟨if_pos he, y, hy, he⟩
    · rw [if_neg he]
      exact Or.inr hy
  refine ⟨fun x hx => ?_, h.fresh, fun key' elem' hk' x hx he => ?_, fun x hx => ?_⟩
  · rcases hmem x hx with ⟨rfl, -⟩ | hx
    · exact h.fresh key elem hk
    · exact h.next x hx
  · rcases hmem x hx with ⟨rfl, y, hy, hye⟩ | hx
    · -- the element had the key of everything that leads to it
      obtain rfl : elem = elem' := he
      exact (h.keyed key elem hk y hy hye).symm.trans (h.keyed key' elem hk' y hy hye)
    · exact h.keyed key' elem' hk' x hx he
  · rcases hmem x hx with ⟨rfl, -⟩ | hx
    · exact hproof
    · exact h.good x hx

theorem Holds.pushFront (h : s.Holds P) (hproof : P key proof) :
    Holds P { s with
      entries := s.entries.insert key s.lru.next
      lru := (s.lru.pushFront (key, proof)).2 } := by
  refine ⟨fun x hx => ?_, fun key' elem' hk' => ?_, fun key' elem' hk' x hx he => ?_, fun x hx => ?_⟩
  · rcases LinkedList.mem_pushFront.1 hx with rfl | hx
    · exact Nat.lt_succ_self _
    · exact (h.next x hx).trans (Nat.lt_succ_self _)
  · rw [GoMap.lookup_insert] at hk'
    split_ifs at hk'
    · obtain rfl := Option.some.inj hk'
      exact Nat.lt_succ_self _
    · exact (h.fresh key' elem' hk').trans (Nat.lt_succ_self _)
  · rw [GoMap.lookup_insert] at hk'
    rcases LinkedList.mem_pushFront.1 hx with rfl | hx
    · split_ifs at hk' with heq
      · exact heq.symm
      · exact absurd he (h.fresh key' elem' hk').ne'
    · split_ifs at hk'
      · obtain rfl := Option.some.inj hk'
        exact absurd he (h.next x hx).ne
      · exact h.keyed key' elem' hk' x hx he
  · rcases LinkedList.mem_pushFront.1 hx with rfl | hx
    · exact hproof
    · exact h.good x hx

theorem Holds.get (h : s.Holds P) (key : H) :
    (s.get key).2.Holds P ∧ ∀ proof, (s.get key).1 = some proof → P key proof := by
  unfold CacheShard.get
  cases hf : s.find key with
  | none => exact ⟨h, fun _ hp => nomatch hp⟩
  | some found =>
    refine ⟨h.moveToFront found.1, fun proof hp => ?_⟩
    obtain rfl := Option.some.inj hp
    exact h.of_find hf

theorem Holds.set (h : s.Holds P) (hproof : P key proof) : (s.set key proof).Holds P := by
  unfold CacheShard.set
  cases hk : s.entries.lookup key with
  | some elem => exact (h.moveToFront elem).setValue hk hproof
  | none => exact h.makeRoom.pushFront hproof

theorem Holds.update (h : s.Holds P) (hproof : P key proof) : (s.update key proof).Holds P := by
  unfold CacheShard.update
  cases hk : s.entries.lookup key with
  | some elem => exact h.setValue hk hproof
  | none => exact h

end CacheShard

namespace ProofCache

variable {n : ℕ} [NeZero n] [Hashing H] {c : ProofCache n ι H}

/-- Whatever is found in the cache has `P`. -/
def Holds (P : H → MaterializedProof ι H → Prop) (c : ProofCache n ι H) : Prop :=
  ∀ i, (c.shards i).Holds P

omit [NeZero n] [Hashing H] in
theorem holds_new (capacity : ℕ) : (new n capacity : ProofCache n ι H).Holds P :=
  fun _ => CacheShard.holds_new capacity

omit [NeZero n] [Hashing H] in
theorem Holds.setShard (h : c.Holds P) (i : Fin n) {s : CacheShard ι H} (hs : s.Holds P) :
    (c.setShard i s).Holds P := by
  intro j
  by_cases hj : j = i
  · subst hj
    have hself : (c.setShard j s).shards j = s := Function.update_self ..
    rwa [hself]
  · have hother : (c.setShard i s).shards j = c.shards j := Function.update_of_ne hj ..
    rw [hother]
    exact h j

theorem Holds.get (h : c.Holds P) (key : H) : (c.get key).2.Holds P :=
  h.setShard _ ((h _).get key).1

variable {proof : MaterializedProof ι H}

theorem Holds.of_get (h : c.Holds P) {key : H} (hp : (c.get key).1 = some proof) : P key proof :=
  ((h _).get key).2 proof hp

theorem Holds.set (h : c.Holds P) {key : H} (hproof : P key proof) : (c.set key proof).Holds P :=
  h.setShard _ ((h _).set hproof)

theorem Holds.update (h : c.Holds P) {key : H} (hproof : P key proof) : (c.update key proof).Holds P :=
  h.setShard _ ((h _).update hproof)

omit [NeZero n] [Hashing H] in
theorem Holds.mono {P' : H → MaterializedProof ι H → Prop}
    (hP : ∀ key proof, P key proof → P' key proof) (h : c.Holds P) : c.Holds P' :=
  fun i => ⟨(h i).next, (h i).fresh, (h i).keyed, fun x hx => hP _ _ ((h i).good x hx)⟩

end ProofCache

theorem ProofCache.Holds.change {n : ℕ} {P P' : H → MaterializedProof Ref H → Prop} {c : Change}
    {pc : ProofCache n Ref H} (hP : ∀ key proof, P key proof → P' key (proof.change c))
    (h : pc.Holds P) : (pc.change c).Holds P' := by
  intro i
  have hmem : ∀ x ∈ ((pc.change c).shards i).lru.elems,
      ∃ y ∈ (pc.shards i).lru.elems, x = (y.1, y.2.1, y.2.2.change c) := fun x hx => by
    obtain ⟨y, hy, rfl⟩ := List.mem_map.1 hx
    exact ⟨y, hy, rfl⟩
  refine ⟨fun x hx => ?_, (h i).fresh, fun key elem hk x hx he => ?_, fun x hx => ?_⟩
  · obtain ⟨y, hy, rfl⟩ := hmem x hx
    exact (h i).next y hy
  · obtain ⟨y, hy, rfl⟩ := hmem x hx
    exact (h i).keyed key elem hk y hy he
  · obtain ⟨y, hy, rfl⟩ := hmem x hx
    exact hP _ _ ((h i).good y hy)

end Wavicle.Engine
