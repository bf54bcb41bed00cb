import Wavicle.Lib.Bufio

/-! # Places in texts

What `strings.Index` finds, the parts of a `strings.Split`, and what `strings.TrimSpace` leaves of them. -/

namespace Wavicle.Lib

open List

variable {s t : Str}

/-! ### The first occurrence -/

theorem isPrefix_drop_of_indexOf : ∀ {s : Str} {i : ℕ}, indexOf t s = some i → t <+: s.drop i
  | [], i, h => by
    unfold indexOf at h
    split_ifs at h with ht
    rw [ht]
    exact nil_prefix
  | b :: s, i, h => by
    unfold indexOf at h
    split_ifs at h with hpre
    · rw [← Option.some.inj h]
      exact isPrefixOf_iff_prefix.1 hpre
    · obtain ⟨j, hj, rfl⟩ := Option.map_eq_some_iff.1 h
      have hdrop : t <+: s.drop j := isPrefix_drop_of_indexOf hj
      exact hdrop

theorem indexOf_le : ∀ {s : Str} {j : ℕ}, t <+: s.drop j → ∃ i ≤ j, indexOf t s = some i
  | [], j, h => by
    rw [drop_nil, prefix_nil] at h
    exact ⟨0, Nat.zero_le j, if_pos h⟩
  | b :: s, j, h => by
    unfold indexOf
    split_ifs with hpre
    · exact ⟨0, Nat.zero_le j, rfl⟩
    · cases j with
      | zero => exact absurd (List.isPrefixOf_iff_prefix.2 h) hpre
      | succ j =>
        have hdrop : t <+: s.drop j := h
        obtain ⟨i, hi, hindex⟩ := indexOf_le hdrop
        exact ⟨i + 1, by omega, by rw [hindex]; rfl⟩

theorem not_isInfix_take_of_indexOf (ht : t ≠ []) {i : ℕ} (h : indexOf t s = some i) :
    ¬ t <:+: s.take i := by
  rintro ⟨a, b, hab⟩
  have hdrop : t <+: s.drop a.length := by
    rw [← take_append_drop i s, ← hab, append_assoc, append_assoc,
      drop_left]
    exact prefix_append _ _
  obtain ⟨j, hj, hindex⟩ := indexOf_le hdrop
  have hlength := congrArg List.length hab
  have hpos := length_pos_iff.2 ht
  rw [length_append, length_append, length_take] at hlength
  obtain rfl := Option.some.inj (h.symm.trans hindex)
  omega

/-- The place of an occurrence, if there is none in what comes before it and all but its last byte. -/
theorem indexOf_append {a : Str} (h : ¬ t <:+: a ++ t.dropLast) (b : Str) :
    indexOf t (a ++ (t ++ b)) = some a.length := by
  obtain ⟨i, hi, hindex⟩ := indexOf_le (t := t) (s := a ++ (t ++ b)) (j := a.length)
    (by rw [drop_left]; exact prefix_append t b)
  rcases Nat.lt_or_eq_of_le hi with hlt | rfl
  · refine absurd ?_ h
    -- an occurrence that begins in `a` ends before the last byte of the known one
    have hpre := isPrefix_drop_of_indexOf hindex
    rw [drop_append_of_le_length hi] at hpre
    have hshort : t <+: a.drop i ++ t.dropLast := by
      refine prefix_of_prefix_length_le hpre ?_ ?_
      · exact (prefix_append_right_inj _).2 ((List.dropLast_prefix t).trans (prefix_append t b))
      · rw [length_append, length_drop, length_dropLast]
        omega
    obtain ⟨c, hc⟩ := hshort
    exact ⟨a.take i, c, by rw [append_assoc, hc, ← append_assoc, take_append_drop]⟩
  · exact hindex

theorem isInfix_append_cons {k x y : Str} {sep : UInt8} (hsep : sep ∉ k) :
    k <:+: x ++ sep :: y ↔ k <:+: x ∨ k <:+: y := by
  constructor
  · rintro ⟨p, q, h⟩
    rcases append_eq_append_iff.1 h with ⟨c, hx, -⟩ | ⟨c, hpk, hy⟩
    · exact .inl ⟨p, c, hx.symm⟩
    · cases c with
      | nil => exact .inl ⟨p, [], by simpa using hpk⟩
      | cons b c =>
        obtain ⟨rfl, rfl⟩ := List.cons.inj hy
        rcases append_eq_append_iff.1 hpk with ⟨d, -, hk⟩ | ⟨d, -, hd⟩
        · exact absurd (hk ▸ mem_append_right d (.head _)) hsep
        · cases d with
          | nil =>
            rw [nil_append] at hd
            exact absurd (hd ▸ mem_cons_self) hsep
          | cons b d =>
            obtain ⟨-, rfl⟩ := List.cons.inj hd
            exact .inr ⟨d, q, rfl⟩
  · rintro (h | h)
    · exact h.trans (prefix_append x _).isInfix
    · exact h.trans ((suffix_cons sep y).isInfix.trans (suffix_append x _).isInfix)

theorem append_cons_inj {x y u v : Str} {sep : UInt8} (hx : sep ∉ x) (hu : sep ∉ u)
    (h : x ++ sep :: y = u ++ sep :: v) : x = u ∧ y = v := by
  have hparts := congrArg (split sep) h
  rw [split_append hx, split_append hu] at hparts
  obtain ⟨rfl, -⟩ := List.cons.inj hparts
  exact ⟨rfl, (List.cons.inj (append_cancel_left h)).2⟩

theorem append_cons_inj_right {x y u v : Str} {sep : UInt8} (hy : sep ∉ y) (hv : sep ∉ v)
    (h : x ++ sep :: y = u ++ sep :: v) : x = u ∧ y = v := by
  have hrev := congrArg List.reverse h
  simp only [reverse_append, reverse_cons, append_assoc, singleton_append] at hrev
  obtain ⟨hyv, hxu⟩ := append_cons_inj (by simpa using hy) (by simpa using hv) hrev
  exact ⟨reverse_injective hxu, reverse_injective hyv⟩

/-! ### Parts -/

theorem split_eq_cons (sep : UInt8) : ∀ s : Str, ∃ part parts, split sep s = part :: parts ∧ part <+: s ∧
    ∀ q ∈ parts, q <:+: s
  | [] => ⟨[], [], rfl, nil_prefix, fun _ h => absurd h not_mem_nil⟩
  | b :: s => by
    obtain ⟨part, parts, hs, hpart, hparts⟩ := split_eq_cons sep s
    have htail := (suffix_cons b s).isInfix
    by_cases hb : b = sep
    · refine ⟨[], part :: parts, by rw [split, if_pos hb, hs], nil_prefix, fun q hq => ?_⟩
      rcases mem_cons.1 hq with rfl | hq
      · exact hpart.isInfix.trans htail
      · exact (hparts q hq).trans htail
    · exact ⟨b :: part, parts, split_cons_of_ne hb hs, (prefix_cons_inj b).2 hpart,
        fun q hq => (hparts q hq).trans htail⟩

theorem isInfix_of_mem_split {sep : UInt8} {part : Str} (h : part ∈ split sep s) : part <:+: s := by
  obtain ⟨first, parts, hs, hfirst, hparts⟩ := split_eq_cons sep s
  rw [hs] at h
  rcases mem_cons.1 h with rfl | h
  · exact hfirst.isInfix
  · exact hparts part h

/-- The parts have the bytes of the text, but for the separators. -/
theorem sum_countP_split {sep : UInt8} {P : UInt8 → Bool} (hsep : P sep = false) :
    ∀ s : Str, ((split sep s).map (countP P)).sum = s.countP P
  | [] => rfl
  | b :: s => by
    have ih := sum_countP_split hsep s
    by_cases hb : b = sep
    · rw [split, if_pos hb, map_cons, sum_cons, ih, countP_cons_of_neg (by simp [hb, hsep]), countP_nil,
        Nat.zero_add]
    · obtain ⟨part, parts, hs, -⟩ := split_eq_cons sep s
      rw [hs, map_cons, sum_cons] at ih
      rw [split_cons_of_ne hb hs, map_cons, sum_cons, countP_cons, countP_cons, ← ih]
      omega

variable [Spaces]

/-- `strings.TrimSpace` takes white space from both ends. -/
theorem exists_trimSpace_of_isASCII (hs : isASCII s = true) : ∃ l r, s = l ++ (trimSpace s ++ r) ∧
    ∀ b ∈ l ++ r, isSpace b = true := by
  unfold trimSpace
  rw [if_pos hs]
  refine ⟨s.takeWhile isSpace, ((s.dropWhile isSpace).reverse.takeWhile isSpace).reverse, ?_, fun b hb => ?_⟩
  · rw [← reverse_append, takeWhile_append_dropWhile, reverse_reverse, takeWhile_append_dropWhile]
  · rcases mem_append.1 hb with hb | hb
    · exact mem_takeWhile_imp hb
    · exact mem_takeWhile_imp (mem_reverse.1 hb)

theorem trimSpace_append {l r : Str} (hl : ∀ b ∈ l, isSpace b = true) (hr : ∀ b ∈ r, isSpace b = true)
    (hs : s ≠ []) (hword : ∀ b ∈ s, isSpace b = false) (hascii : isASCII (l ++ (s ++ r)) = true) :
    trimSpace (l ++ (s ++ r)) = s := by
  have hdrop : ∀ {x y z : Str}, (∀ b ∈ x, isSpace b = true) → y ≠ [] → (∀ b ∈ y, isSpace b = false) →
      (x ++ (y ++ z)).dropWhile isSpace = y ++ z := by
    intro x y z hx hy hword
    obtain ⟨b, y, rfl⟩ := exists_cons_of_ne_nil hy
    rw [dropWhile_append_of_pos hx, cons_append,
      dropWhile_cons_of_neg (by simp [hword b (.head _)])]
  unfold trimSpace
  rw [if_pos hascii, hdrop hl hs hword, reverse_append, ← append_nil s.reverse,
    hdrop (by simpa using hr) (by simpa using hs) (by simpa using hword), append_nil,
    reverse_reverse]

end Wavicle.Lib
