import Mathlib

/-! # Recency

A list of uses, the newest first, and the different keys in it, `recent`.

* `mem_take_recent`: a key is among the last `c` if fewer than `c` other keys were used since.
* `touch`: an entry comes to the front. -/

namespace Wavicle.Lib

open List

variable {κ α : Type} [DecidableEq κ] {k x : κ} {us l : List κ} {c : ℕ}

def recent : List κ → List κ
  | [] => []
  | k :: us => k :: (recent us).filter (· ≠ k)

theorem mem_recent : k ∈ recent us ↔ k ∈ us := by
  induction us with
  | nil => rfl
  | cons x us ih =>
    simp only [recent, mem_cons, mem_filter, ih, decide_eq_true_eq]
    by_cases hk : k = x
    · simp [hk]
    · simp [hk]

theorem nodup_recent (us : List κ) : (recent us).Nodup := by
  induction us with
  | nil => exact nodup_nil
  | cons x us ih =>
    refine nodup_cons.2 ⟨fun hx => ?_, ih.filter _⟩
    simp at hx

theorem length_recent (us : List κ) : (recent us).length = us.toFinset.card := by
  have hfinset : (recent us).toFinset = us.toFinset := by
    ext k
    rw [mem_toFinset, mem_toFinset, mem_recent]
  rw [← hfinset, toFinset_card_of_nodup (nodup_recent us)]

theorem takeWhile_filter {P : κ → Bool} (hk : P k = true) (l : List κ) :
    (l.filter P).takeWhile (· ≠ k) = (l.takeWhile (· ≠ k)).filter P := by
  induction l with
  | nil => rfl
  | cons y l ih =>
    by_cases hy : y = k
    · subst hy
      simp [hk]
    · have hhead : (y :: l).takeWhile (· ≠ k) = y :: l.takeWhile (· ≠ k) := by simp [hy]
      rw [hhead]
      by_cases hP : P y = true
      · rw [filter_cons_of_pos hP, filter_cons_of_pos hP, ← ih]
        simp [hy]
      · rw [filter_cons_of_neg hP, filter_cons_of_neg hP, ih]

theorem takeWhile_recent (k : κ) (us : List κ) :
    (recent us).takeWhile (· ≠ k) = recent (us.takeWhile (· ≠ k)) := by
  induction us with
  | nil => rfl
  | cons x us ih =>
    by_cases hx : x = k
    · simp [recent, hx]
    · have hhead : (x :: us).takeWhile (· ≠ k) = x :: us.takeWhile (· ≠ k) := by simp [hx]
      rw [hhead, recent, recent, ← ih, ← takeWhile_filter (by simp [Ne.symm hx])]
      simp [hx]

theorem mem_take_iff (l : List κ) (c : ℕ) : k ∈ l.take c ↔ k ∈ l ∧ (l.takeWhile (· ≠ k)).length < c := by
  induction l generalizing c with
  | nil => simp
  | cons y l ih =>
    cases c with
    | zero => simp
    | succ c =>
      by_cases hy : y = k
      · simp [hy]
      · simp [hy, Ne.symm hy, ih]

theorem mem_take_recent : k ∈ (recent us).take c ↔ k ∈ us ∧ (us.takeWhile (· ≠ k)).toFinset.card < c := by
  rw [mem_take_iff, mem_recent, takeWhile_recent, length_recent]

theorem take_filter_ne (hl : l.Nodup) (k : κ) (c : ℕ) :
    ((l.take (c + 1)).filter (· ≠ k)).take c = (l.filter (· ≠ k)).take c := by
  conv_rhs => rw [← take_append_drop (c + 1) l, filter_append, take_append]
  by_cases hlen : l.length ≤ c + 1
  · simp [drop_eq_nil_of_le hlen]
  · -- at most one of the `c + 1` is left out
    have hcount : c ≤ ((l.take (c + 1)).filter (· ≠ k)).length := by
      have hone := nodup_iff_count_le_one.1 (hl.sublist (take_sublist (c + 1) l)) k
      have hsplit : (l.take (c + 1)).length = (l.take (c + 1)).countP (· == k) +
          (l.take (c + 1)).countP (fun a => ¬ (a == k) = true) :=
        length_eq_countP_add_countP (· == k)
      have hlength : (l.take (c + 1)).length = c + 1 := length_take_of_le (by omega)
      have hrest : ((l.take (c + 1)).filter (· ≠ k)).length =
          (l.take (c + 1)).countP (fun a => ¬ (a == k) = true) := by
        rw [countP_eq_length_filter]
        simp
      rw [List.count] at hone
      omega
    rw [Nat.sub_eq_zero_of_le hcount, take_zero, append_nil]

theorem take_recent_cons (hc : 0 < c) (k : κ) (us : List κ) :
    (k :: ((recent us).take c).filter (· ≠ k)).take c = (recent (k :: us)).take c := by
  obtain ⟨c, rfl⟩ := Nat.exists_eq_add_of_lt hc
  rw [zero_add, recent, take_succ_cons, take_succ_cons,
    take_filter_ne (nodup_recent us)]

/-! ### With values -/

def touch (k : κ) (v : α) (l : List (κ × α)) : List (κ × α) := (k, v) :: l.filter (·.1 ≠ k)

theorem keys_filter (k : κ) (l : List (κ × α)) :
    (l.filter (·.1 ≠ k)).map (·.1) = (l.map (·.1)).filter (· ≠ k) := by
  rw [filter_map]
  rfl

theorem keys_touch (k : κ) (v : α) (l : List (κ × α)) :
    (touch k v l).map (·.1) = k :: (l.map (·.1)).filter (· ≠ k) := by
  rw [touch, map_cons, keys_filter]

theorem mem_touch {v : α} {l : List (κ × α)} {e : κ × α} :
    e ∈ touch k v l ↔ e = (k, v) ∨ e ∈ l ∧ e.1 ≠ k := by
  simp [touch]

theorem length_touch {v : α} {l : List (κ × α)} (hl : (l.map (·.1)).Nodup) (hk : k ∈ l.map (·.1)) :
    (touch k v l).length = l.length := by
  have hkeys := congrArg List.length (keys_touch k v l)
  have herase : (l.map (·.1)).filter (· ≠ k) = (l.map (·.1)).erase k := by
    rw [hl.erase_eq_filter]
    refine filter_congr fun y _ => ?_
    by_cases hy : y = k
    · simp [hy]
    · simp [hy]
  rw [herase, length_cons, length_erase_of_mem hk, length_map, length_map] at hkeys
  have hpos : 0 < (l.map (·.1)).length := length_pos_of_mem hk
  rw [length_map] at hpos
  omega

theorem touch_of_not_mem {v : α} {l : List (κ × α)} (hk : k ∉ l.map (·.1)) : touch k v l = (k, v) :: l := by
  rw [touch, filter_eq_self.2]
  intro e he
  refine decide_eq_true fun hek => hk ?_
  rw [← hek]
  exact mem_map_of_mem he

end Wavicle.Lib
