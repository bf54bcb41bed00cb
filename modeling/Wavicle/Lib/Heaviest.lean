import Mathlib

/-! # Taking from the heaviest queue

Queues of items of positive size, the newest first. As long as the sizes add up to more than a target, the
oldest item of the first heaviest queue is dropped. -/

namespace Wavicle.Lib

open List

/-! ### What is kept of a queue -/

/-- The sum of the first sizes, as long as `ok` holds of it. -/
def kept (ok : ℤ → Bool) : ℤ → List ℤ → ℤ
  | sum, [] => sum
  | sum, x :: l => if ok (sum + x) then kept ok (sum + x) l else sum

section

variable {ok : ℤ → Bool} {l : List ℤ}

theorem kept_le (hpos : ∀ x ∈ l, 0 < x) (sum : ℤ) : kept ok sum l ≤ sum + l.sum := by
  induction l generalizing sum with
  | nil => simp [kept]
  | cons x l ih =>
    have hx := hpos x (.head _)
    have hl := ih (forall_mem_cons.1 hpos).2
    have hsum : 0 ≤ l.sum := sum_nonneg fun y hy => (hpos y (.tail _ hy)).le
    rw [kept, sum_cons]
    split_ifs
    · have := hl (sum + x)
      omega
    · omega

theorem kept_of_ok (hok : ∀ a b, a ≤ b → ok b = true → ok a = true) (hpos : ∀ x ∈ l, 0 < x) {sum : ℤ}
    (hsum : ok (sum + l.sum) = true) : kept ok sum l = sum + l.sum := by
  induction l generalizing sum with
  | nil => simp [kept]
  | cons x l ih =>
    have hpos' : ∀ y ∈ l, 0 < y := (forall_mem_cons.1 hpos).2
    have hrest : 0 ≤ l.sum := sum_nonneg fun y hy => (hpos' y hy).le
    rw [sum_cons, ← add_assoc] at hsum ⊢
    have hhead : ok (sum + x) = true := hok _ _ (by omega) hsum
    rw [kept, if_pos hhead]
    exact ih hpos' hsum

theorem kept_dropLast {sum : ℤ} (hsum : ok (sum + l.sum) = false) :
    kept ok sum l.dropLast = kept ok sum l := by
  induction l generalizing sum with
  | nil => rfl
  | cons x l ih =>
    rw [sum_cons, ← add_assoc] at hsum
    cases l with
    | nil =>
      rw [sum_nil, add_zero] at hsum
      simp [kept, hsum]
    | cons y l =>
      rw [dropLast_cons_cons, kept, kept]
      split_ifs
      · exact ih hsum
      · rfl

end

/-! ### Rounds -/

variable {κ α : Type} [Fintype κ] [LinearOrder κ] {size : α → ℤ} {target : ℤ} {queues queues' : κ → List α}
  {i : κ} {a : α}

def weight (size : α → ℤ) (l : List α) : ℤ := (l.map size).sum

def totalWeight (size : α → ℤ) (queues : κ → List α) : ℤ := ∑ j, weight size (queues j)

/-- The first of the heaviest queues. -/
def Heaviest (size : α → ℤ) (queues : κ → List α) (i : κ) : Prop :=
  ∀ j, weight size (queues j) ≤ weight size (queues i) ∧
    (j < i → weight size (queues j) < weight size (queues i))

/-- The last element of the heaviest queue goes, while the queues are above the target. -/
def DropsHeaviest (size : α → ℤ) (target : ℤ) (queues queues' : κ → List α) : Prop :=
  target < totalWeight size queues ∧ ∃ i, Heaviest size queues i ∧ queues i ≠ [] ∧
    queues' = Function.update queues i (queues i).dropLast

/-- The weights that a queue `j` can have when the queue `i`, with the weight `z`, is the heaviest one. -/
def lighter (z : ℤ) (i j : κ) (b : ℤ) : Bool := if j < i then b < z else b ≤ z

/-- What is left of a queue when the newest item of the queue `i`, of size `z`, is in danger. -/
def share (size : α → ℤ) (z : ℤ) (i : κ) (queues : κ → List α) (j : κ) : ℤ :=
  if j = i then z else kept (lighter z i j) 0 ((queues j).map size)

omit [Fintype κ] in
theorem lighter_mono (z : ℤ) (i j : κ) (b c : ℤ) (hbc : b ≤ c) (hc : lighter z i j c = true) :
    lighter z i j b = true := by
  unfold lighter at *
  split_ifs at * with hj
  · simp only [decide_eq_true_eq] at *
    omega
  · simp only [decide_eq_true_eq] at *
    omega

def Positive (size : α → ℤ) (queues : κ → List α) : Prop := ∀ j, ∀ x ∈ queues j, 0 < size x

omit [Fintype κ] [LinearOrder κ] in
theorem Positive.map (hpos : Positive size queues) (j : κ) : ∀ x ∈ (queues j).map size, 0 < x := by
  intro x hx
  obtain ⟨y, hy, rfl⟩ := mem_map.1 hx
  exact hpos j y hy

omit [Fintype κ] in
theorem Positive.dropLast (hpos : Positive size queues) (i : κ) :
    Positive size (Function.update queues i (queues i).dropLast) := by
  intro j x hx
  by_cases hj : j = i
  · subst hj
    rw [Function.update_self] at hx
    exact hpos j x (mem_of_mem_dropLast hx)
  · rw [Function.update_of_ne hj] at hx
    exact hpos j x hx

variable {rest : List α}

omit [Fintype κ] [LinearOrder κ] in
theorem Positive.size_le_weight (hpos : Positive size queues) (hi : queues i = a :: rest) :
    size a ≤ weight size (queues i) := by
  have hrest : 0 ≤ (rest.map size).sum := by
    refine sum_nonneg fun x hx => ?_
    obtain ⟨y, hy, rfl⟩ := mem_map.1 hx
    exact (hpos i y (by rw [hi]; exact mem_cons_of_mem _ hy)).le
  rw [hi, weight, map_cons, sum_cons]
  omega

theorem Positive.sum_share_le (hpos : Positive size queues) (hi : queues i = a :: rest) :
    ∑ j, share size (size a) i queues j ≤ totalWeight size queues := by
  refine Finset.sum_le_sum fun j _ => ?_
  unfold share
  split_ifs with hj
  · subst hj
    exact hpos.size_le_weight hi
  · have hle : kept (lighter (size a) i j) 0 ((queues j).map size) ≤ 0 + weight size (queues j) :=
      kept_le (hpos.map j) 0
    rwa [zero_add] at hle

theorem exists_heaviest [Nonempty κ] (size : α → ℤ) (queues : κ → List α) :
    ∃ i, Heaviest size queues i := by
  classical
  let heavy : Finset κ := Finset.univ.filter fun i => ∀ j, weight size (queues j) ≤ weight size (queues i)
  have hheavy : heavy.Nonempty := by
    obtain ⟨i, -, hi⟩ :=
      Finset.exists_max_image Finset.univ (fun i => weight size (queues i)) Finset.univ_nonempty
    exact ⟨i, Finset.mem_filter.2 ⟨Finset.mem_univ i, fun j => hi j (Finset.mem_univ j)⟩⟩
  have hmin := (Finset.mem_filter.1 (heavy.min'_mem hheavy)).2
  refine ⟨heavy.min' hheavy, fun j => ⟨hmin j, fun hj => ?_⟩⟩
  -- an earlier queue of the same weight would be among the heaviest too
  by_contra hge
  have hjmem : j ∈ heavy := by
    refine Finset.mem_filter.2 ⟨Finset.mem_univ j, fun k => ?_⟩
    have hk := hmin k
    omega
  exact absurd (heavy.min'_le j hjmem) (not_le.2 hj)

/-- While the newest item of a queue is there, its queue or a heavier one has something to drop. -/
theorem exists_dropsHeaviest (hpos : Positive size queues) (hi : queues i = a :: rest)
    (htotal : target < totalWeight size queues) : ∃ queues', DropsHeaviest size target queues queues' := by
  have : Nonempty κ := ⟨i⟩
  obtain ⟨k, hk⟩ := exists_heaviest size queues
  refine ⟨_, htotal, k, hk, fun hnil => ?_, rfl⟩
  have hweight := (hk i).1
  have hsize := hpos.size_le_weight hi
  have hpositive : 0 < size a := hpos i a (by rw [hi]; exact mem_cons_self)
  have hzero : weight size (queues k) = 0 := by rw [hnil]; rfl
  omega

omit [Fintype κ] in
theorem share_dropLast (hpos : Positive size queues) (hi : queues i = a :: rest) {k : κ}
    (hk : Heaviest size queues k) (j : κ) :
    share size (size a) i (Function.update queues k (queues k).dropLast) j =
      share size (size a) i queues j := by
  unfold share
  split_ifs with hj
  · rfl
  · by_cases hjk : j = k
    · subst hjk
      rw [Function.update_self, map_dropLast]
      refine kept_dropLast ?_
      -- the heaviest queue is at least as heavy as the item
      have hsize := hpos.size_le_weight hi
      obtain ⟨hle, hlt⟩ := hk i
      change lighter (size a) i j (0 + weight size (queues j)) = false
      unfold lighter
      split_ifs with hji
      · simp only [decide_eq_false_iff_not]
        omega
      · have := hlt (lt_of_le_of_ne (not_lt.1 hji) (Ne.symm hj))
        simp only [decide_eq_false_iff_not]
        omega
    · rw [Function.update_of_ne hjk]

theorem sum_share_of_heaviest (hpos : Positive size queues) (hi : queues i = [a])
    (hheaviest : Heaviest size queues i) :
    ∑ j, share size (size a) i queues j = totalWeight size queues := by
  have hself : weight size (queues i) = size a := by rw [hi]; simp [weight]
  refine Finset.sum_congr rfl fun j _ => ?_
  unfold share
  split_ifs with hj
  · rw [hj, hself]
  · obtain ⟨hle, hlt⟩ := hheaviest j
    rw [hself] at hle hlt
    have hok : lighter (size a) i j (0 + ((queues j).map size).sum) = true := by
      rw [zero_add]
      unfold lighter
      split_ifs with hji
      · exact decide_eq_true (hlt hji)
      · exact decide_eq_true hle
    rw [kept_of_ok (lighter_mono (size a) i j) (hpos.map j) hok, zero_add]
    rfl

theorem isPrefix_of_drops (hrun : Relation.ReflTransGen (DropsHeaviest size target) queues queues')
    (i : κ) : queues' i <+: queues i := by
  induction hrun with
  | refl => exact prefix_rfl
  | tail _ hstep ih =>
    obtain ⟨-, k, -, -, rfl⟩ := hstep
    by_cases hik : i = k
    · subst hik
      rw [Function.update_self]
      exact (List.dropLast_prefix _).trans ih
    · rwa [Function.update_of_ne hik]

/-- **The newest item of a queue survives** a run of rounds to its end exactly if the shares fit the
target. -/
theorem ne_nil_iff_of_ended (hrun : Relation.ReflTransGen (DropsHeaviest size target) queues queues')
    (hend : ∀ next, ¬ DropsHeaviest size target queues' next) (hpos : Positive size queues)
    (hi : (queues i).head? = some a) : queues' i ≠ [] ↔ ∑ j, share size (size a) i queues j ≤ target := by
  induction hrun using Relation.ReflTransGen.head_induction_on with
  | refl =>
    obtain ⟨rest, hrest⟩ := List.head?_eq_some_iff.1 hi
    refine iff_of_true (by rw [hrest]; exact cons_ne_nil _ _) ?_
    by_contra hlt
    have hle := hpos.sum_share_le hrest
    have htotal : target < totalWeight size queues' := by omega
    obtain ⟨next, hnext⟩ := exists_dropsHeaviest hpos hrest htotal
    exact hend next hnext
  | head hstep hrun' ih =>
    obtain ⟨htotal, k, hk, -, rfl⟩ := hstep
    obtain ⟨rest, hrest⟩ := List.head?_eq_some_iff.1 hi
    have hshares := Finset.sum_congr rfl fun j (_ : j ∈ Finset.univ) => share_dropLast hpos hrest hk j
    by_cases hki : k = i
    · subst hki
      cases rest with
      | nil =>
        -- the item itself is dropped
        have hgone := isPrefix_of_drops hrun' k
        rw [Function.update_self, hrest] at hgone
        have hsum := sum_share_of_heaviest hpos hrest hk
        exact iff_of_false (not_not.2 (prefix_nil.1 hgone)) (by omega)
      | cons b rest =>
        rw [← hshares]
        refine ih (hpos.dropLast k) ?_
        rw [Function.update_self, hrest]
        rfl
    · rw [← hshares]
      refine ih (hpos.dropLast k) ?_
      rwa [Function.update_of_ne (Ne.symm hki)]

/-! ### The other items -/

omit [Fintype κ] in
theorem Heaviest.eq (h : Heaviest size queues i) {k : κ} (hk : Heaviest size queues k) : k = i := by
  rcases lt_trichotomy k i with hlt | heq | hlt
  · exact absurd (hk i).1 (not_le.2 ((h k).2 hlt))
  · exact heq
  · exact absurd (h k).1 (not_le.2 ((hk i).2 hlt))

theorem totalWeight_dropLast {k : κ} {x : α} {l : List α} (hk : queues k = l ++ [x]) :
    totalWeight size (Function.update queues k (queues k).dropLast) = totalWeight size queues - size x := by
  unfold totalWeight
  have hsum : ∀ q : κ → List α, ∑ j, weight size (q j) =
      weight size (q k) + ∑ j ∈ Finset.univ.erase k, weight size (q j) :=
    fun q => (Finset.add_sum_erase _ _ (Finset.mem_univ k)).symm
  have hrest : ∑ j ∈ Finset.univ.erase k,
      weight size (Function.update queues k (queues k).dropLast j) =
        ∑ j ∈ Finset.univ.erase k, weight size (queues j) :=
    Finset.sum_congr rfl fun j hj => by rw [Function.update_of_ne (Finset.ne_of_mem_erase hj)]
  rw [hsum, hsum queues, hrest, Function.update_self, hk, dropLast_concat, weight, weight, map_append,
    sum_append, map_singleton, sum_singleton]
  ring

/-- What a round drops does not come back. -/
theorem not_mem_of_drops {k : κ} {x : α} {l : List α} (hk : queues k = l ++ [x]) (hnd : (queues k).Nodup)
    (hrun : Relation.ReflTransGen (DropsHeaviest size target)
      (Function.update queues k (queues k).dropLast) queues') : x ∉ queues' k := by
  intro hx
  have hmem := (isPrefix_of_drops hrun k).subset hx
  rw [Function.update_self, hk, dropLast_concat] at hmem
  rw [hk] at hnd
  exact (nodup_append.1 hnd).2.2 x hmem x (mem_singleton.2 rfl) rfl

theorem eq_of_not_dropping (hrun : Relation.ReflTransGen (DropsHeaviest size target) queues queues')
    (h : totalWeight size queues ≤ target) : queues' = queues := by
  rcases Relation.ReflTransGen.cases_head hrun with heq | ⟨next, hstep, -⟩
  · exact heq.symm
  · exact absurd hstep.1 (not_lt.2 h)

omit [LinearOrder κ] in
theorem exists_ne_nil_of_totalWeight (h : 0 < totalWeight size queues) : ∃ j, queues j ≠ [] := by
  by_contra hnone
  have hzero : totalWeight size queues = 0 := Finset.sum_eq_zero fun j _ => by
    rw [not_not.1 fun hj => hnone ⟨j, hj⟩]
    rfl
  omega

/-- **All items but the newest one of a queue survive** a run of rounds to its end exactly if no round is due, or
if that item alone is dropped: its queue is the first heaviest one and holds nothing else, and the others fit the
target. -/
theorem others_kept_iff (hrun : Relation.ReflTransGen (DropsHeaviest size target) queues queues')
    (hend : ∀ next, ¬ DropsHeaviest size target queues' next) (hpos : Positive size queues)
    (htarget : 0 ≤ target) (hnd : ∀ j, (queues j).Nodup) (hi : (queues i).head? = some a)
    (hown : ∀ j, a ∈ queues j → j = i) :
    (∀ j, ∀ x ∈ queues j, x ≠ a → x ∈ queues' j) ↔ totalWeight size queues ≤ target ∨
      Heaviest size queues i ∧ queues i = [a] ∧ totalWeight size queues - size a ≤ target := by
  obtain ⟨rest, hrest⟩ := List.head?_eq_some_iff.1 hi
  constructor
  · intro hkept
    by_cases htotal : totalWeight size queues ≤ target
    · exact .inl htotal
    · right
      rcases Relation.ReflTransGen.cases_head hrun with rfl | ⟨next, ⟨-, k, hk, hne, rfl⟩, hrun'⟩
      · obtain ⟨next, hnext⟩ := exists_dropsHeaviest hpos hrest (not_le.1 htotal)
        exact absurd hnext (hend next)
      · -- what the first round drops can only be the newest item
        obtain ⟨l, x, hx⟩ := (eq_nil_or_concat' (queues k)).resolve_left hne
        have hxmem : x ∈ queues k := by rw [hx]; exact mem_concat_self
        have hxa : x = a := by_contra fun hxa => not_mem_of_drops hx (hnd k) hrun' (hkept k x hxmem hxa)
        subst hxa
        obtain rfl := hown k hxmem
        have hsingle : queues k = [x] := by
          have hx' := hnd k
          cases l with
          | nil => exact hx
          | cons b l =>
            rw [hrest, List.cons_append] at hx
            obtain ⟨-, rfl⟩ := List.cons.inj hx
            rw [hrest, nodup_cons] at hx'
            exact absurd mem_concat_self hx'.1
        refine ⟨hk, hsingle, ?_⟩
        by_contra hover
        rw [← totalWeight_dropLast hx, not_le] at hover
        rcases Relation.ReflTransGen.cases_head hrun' with heq | ⟨next, ⟨-, m, -, hne', rfl⟩, hrun''⟩
        · obtain ⟨m, hm⟩ := exists_ne_nil_of_totalWeight (htarget.trans_lt hover)
          obtain ⟨b, rest', hb⟩ := exists_cons_of_ne_nil hm
          obtain ⟨next, hnext⟩ := exists_dropsHeaviest (hpos.dropLast k) hb hover
          exact hend next (heq ▸ hnext)
        · have hmk : m ≠ k := by
            rintro rfl
            rw [Function.update_self, hsingle] at hne'
            exact hne' rfl
          obtain ⟨l', y, hy⟩ := (eq_nil_or_concat' _).resolve_left hne'
          have hgone := not_mem_of_drops hy (by rw [Function.update_of_ne hmk]; exact hnd m) hrun''
          rw [Function.update_of_ne hmk] at hy
          have hymem : y ∈ queues m := by rw [hy]; exact mem_concat_self
          exact hgone (hkept m y hymem fun h => hmk (hown m (h ▸ hymem)))
  · rintro (htotal | ⟨hheavy, hsingle, hfits⟩) j x hx hxa
    · rwa [eq_of_not_dropping hrun htotal]
    · have hj : j ≠ i := by
        rintro rfl
        rw [hsingle] at hx
        exact hxa (mem_singleton.1 hx)
      rcases Relation.ReflTransGen.cases_head hrun with rfl | ⟨next, ⟨-, k, hk, -, rfl⟩, hrun'⟩
      · exact hx
      · obtain rfl := hheavy.eq hk
        rw [← totalWeight_dropLast (l := []) hsingle] at hfits
        rw [eq_of_not_dropping hrun' hfits]
        rwa [Function.update_of_ne hj]

end Wavicle.Lib
