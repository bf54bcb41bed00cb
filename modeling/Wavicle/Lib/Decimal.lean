import Wavicle.Lib.Strconv

/-! # Decimal numbers

What `strconv` writes it reads back: the digits of a number, by the recursion on the last digit. -/

namespace Wavicle.Lib

def isDigit (b : UInt8) : Bool := 48 ≤ b ∧ b ≤ 57

theorem digitChar_toUInt8 {d : ℕ} (h : d < 10) : (Nat.digitChar d).toNat.toUInt8 = (48 + d).toUInt8 := by
  interval_cases d <;> rfl

theorem decimal_eq (n : ℕ) :
    decimal n = (if n < 10 then [] else decimal (n / 10)) ++ [(48 + n % 10).toUInt8] := by
  unfold decimal
  rw [Nat.toDigits_eq_if (by decide)]
  split_ifs with h
  · rw [List.map_singleton, digitChar_toUInt8 h, Nat.mod_eq_of_lt h, List.nil_append]
  · rw [List.map_append, List.map_singleton, digitChar_toUInt8 (Nat.mod_lt n (by decide))]

theorem decimal_ne_nil (n : ℕ) : decimal n ≠ [] := by
  rw [decimal_eq]
  simp

theorem digit_toNat {d : ℕ} (h : d < 10) : ((48 + d).toUInt8).toNat = 48 + d := by
  interval_cases d <;> rfl

theorem isDigit_digit {d : ℕ} (h : d < 10) : isDigit (48 + d).toUInt8 = true := by
  interval_cases d <;> rfl

theorem isDigit_of_mem_decimal {n : ℕ} : ∀ b ∈ decimal n, isDigit b = true := by
  induction n using Nat.strong_induction_on with
  | _ n ih =>
    intro b hb
    rw [decimal_eq, List.mem_append, List.mem_singleton] at hb
    rcases hb with hb | rfl
    · split_ifs at hb with h
      · cases hb
      · exact ih (n / 10) (by omega) b hb
    · exact isDigit_digit (Nat.mod_lt n (by decide))

theorem foldl_decimal (n : ℕ) : (decimal n).foldl (fun m b => 10 * m + (b.toNat - 48)) 0 = n := by
  induction n using Nat.strong_induction_on with
  | _ n ih =>
    rw [decimal_eq, List.foldl_append, List.foldl_cons, List.foldl_nil,
      digit_toNat (Nat.mod_lt n (by decide))]
    split_ifs with h
    · rw [List.foldl_nil]
      omega
    · rw [ih (n / 10) (by omega)]
      omega

theorem digits_decimal (n : ℕ) : digits (decimal n) = some n := by
  have hall : (decimal n).all (fun b => 48 ≤ b ∧ b ≤ 57) = true :=
    List.all_eq_true.2 isDigit_of_mem_decimal
  rw [digits, if_pos ⟨decimal_ne_nil n, hall⟩, foldl_decimal]

theorem decimal_injective : Function.Injective decimal := by
  intro n m h
  exact Option.some.inj ((digits_decimal n).symm.trans ((congrArg digits h).trans (digits_decimal m)))

theorem decimal_line_inj {n m : ℕ} {x y : Str} (h : decimal n ++ 13 :: x = decimal m ++ 13 :: y) :
    n = m ∧ x = y := by
  have htake : ∀ k z, (decimal k ++ 13 :: z).takeWhile isDigit = decimal k := by
    intro k z
    rw [List.takeWhile_append_of_pos isDigit_of_mem_decimal, List.takeWhile_cons_of_neg (by decide),
      List.append_nil]
  have hdec : decimal n = decimal m := by rw [← htake n x, h, htake m y]
  obtain rfl := decimal_injective hdec
  exact ⟨rfl, (List.cons.inj (List.append_cancel_left h)).2⟩

theorem toInt_ofInt_natCast {n : ℕ} (h : n < 2 ^ 63) : (Int64.ofInt n).toInt = n :=
  Int64.toInt_ofInt_of_le (by omega) (by omega)

theorem parseInt_decimal {n : ℕ} (h : n < 2 ^ 63) : parseInt (decimal n) = some (.ofInt n) := by
  have hsigned : (digits (decimal n)).bind (signed false) = some (.ofInt n) := by
    rw [digits_decimal, Option.bind_some, signed, if_neg Bool.false_ne_true, if_pos h]
  cases hd : decimal n with
  | nil => exact absurd hd (decimal_ne_nil n)
  | cons b ds =>
    have hb : isDigit b = true := isDigit_of_mem_decimal b (hd ▸ List.mem_cons_self)
    rw [hd] at hsigned
    -- no digit is a sign
    have hplus : b ≠ 43 := by rintro rfl; exact absurd hb (by decide)
    have hminus : b ≠ 45 := by rintro rfl; exact absurd hb (by decide)
    unfold parseInt
    split
    · exact absurd (List.cons.inj ‹_›).1 hplus
    · exact absurd (List.cons.inj ‹_›).1 hminus
    · exact hsigned

end Wavicle.Lib
