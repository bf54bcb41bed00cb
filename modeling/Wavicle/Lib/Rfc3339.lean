import Wavicle.Lib.Decimal

/-! # Seconds as texts of RFC 3339

The layout `time.RFC3339` in UTC, as in `1970-01-01T00:05:00Z`, for a number of seconds since 1970.

* `Date`, `civil`, `dayNumber`: the Gregorian calendar, and `dayNumber_civil`, that a date has its day.
* `write` and `read`: numbers of fixed widths, each followed by a byte; `read_write`.
* `format` and `parse`: the texts. A text is read exactly if it is the text of some second.
* `parse_format`: the second of a text, from the year 0 on and before the year 10000. -/

namespace Wavicle.Lib.Rfc3339

open List

/-! ### The calendar -/

/-- A day of the Gregorian calendar; months and days count from 1. -/
structure Date where
  year : ℤ
  month : ℤ
  day : ℤ
  deriving DecidableEq

/-- The day 1 January 1970, counted from 1 March of the year 0. -/
def epoch : ℤ := 719468

/-- The year of a day in an era, 400 years from a March on: the last of four centuries has one day more, and so
has the last of four years, unless it ends such a shorter century. -/
def yearOfEra (n : ℤ) : ℤ :=
  let century := min (n / 36524) 3
  let inCentury := n - 36524 * century
  100 * century + 4 * (inCentury / 1461) + min (inCentury % 1461 / 365) 3

/-- The days of an era before a year of it. -/
def daysBefore (y : ℤ) : ℤ := 365 * y + y / 4 - y / 100

/-- The date of a day since 1 January 1970. -/
def civil (n : ℤ) : Date :=
  let inEra := (n + epoch) % 146097
  let y := yearOfEra inEra
  let inYear := inEra - daysBefore y
  -- months from March on, whose first days are `(153 m + 2) / 5`
  let m := (5 * inYear + 2) / 153
  { year := y + (n + epoch) / 146097 * 400 + if m < 10 then 0 else 1
    month := if m < 10 then m + 3 else m - 9
    day := inYear - (153 * m + 2) / 5 + 1 }

/-- The day of a date, which `civil` turns back. -/
def dayNumber (d : Date) : ℤ :=
  let y := if d.month ≤ 2 then d.year - 1 else d.year
  let m := if d.month ≤ 2 then d.month + 9 else d.month - 3
  y / 400 * 146097 + daysBefore (y % 400) + ((153 * m + 2) / 5 + d.day - 1) - epoch

example : civil 0 = ⟨1970, 1, 1⟩ ∧ civil 11016 = ⟨2000, 2, 29⟩ ∧ civil (-1) = ⟨1969, 12, 31⟩ := by decide

/-- A day of an era is one of the at most 366 days of its year. -/
theorem yearOfEra_spec {n : ℤ} (h0 : 0 ≤ n) (h1 : n < 146097) : 0 ≤ yearOfEra n ∧ yearOfEra n < 400 ∧
    0 ≤ n - daysBefore (yearOfEra n) ∧ n - daysBefore (yearOfEra n) ≤ 365 := by
  unfold yearOfEra daysBefore
  dsimp only
  generalize hc : min (n / 36524) 3 = century
  generalize hr : n - 36524 * century = inCentury
  generalize hq : inCentury / 1461 = four
  generalize hy : min (inCentury % 1461 / 365) 3 = year
  have hcentury : 0 ≤ inCentury ∧ inCentury ≤ 36524 ∧ 0 ≤ century ∧ century ≤ 3 := by omega
  have hyear : 0 ≤ year ∧ year ≤ 3 ∧ 0 ≤ inCentury % 1461 - 365 * year ∧
    inCentury % 1461 - 365 * year ≤ 365 := by omega
  -- the leap years before this one, with and without those at the end of a century
  have hleap : (100 * century + 4 * four + year) / 4 = 25 * century + four ∧
    (100 * century + 4 * four + year) / 100 = century := by omega
  omega

section Civil

variable (n : ℤ)

theorem civil_spec : ∃ y m : ℤ, 0 ≤ y ∧ y < 400 ∧ 0 ≤ m ∧ m < 12 ∧
    (n + epoch) % 146097 = daysBefore y + ((153 * m + 2) / 5 + (civil n).day - 1) ∧
    1 ≤ (civil n).day ∧ (civil n).day ≤ 31 ∧ (m < 10 ∨ 306 ≤ (n + epoch) % 146097 - daysBefore y) ∧
    (civil n).year = y + (n + epoch) / 146097 * 400 + (if m < 10 then 0 else 1) ∧
    (civil n).month = if m < 10 then m + 3 else m - 9 := by
  have hera : 0 ≤ (n + epoch) % 146097 ∧ (n + epoch) % 146097 < 146097 := by omega
  obtain ⟨h0, h1, hlow, hhigh⟩ := yearOfEra_spec hera.1 hera.2
  generalize hy : yearOfEra ((n + epoch) % 146097) = y at h0 h1 hlow hhigh
  have hday : (civil n).day = (n + epoch) % 146097 - daysBefore y -
      (153 * ((5 * ((n + epoch) % 146097 - daysBefore y) + 2) / 153) + 2) / 5 + 1 := by
    rw [← hy]
    rfl
  refine ⟨y, (5 * ((n + epoch) % 146097 - daysBefore y) + 2) / 153, h0, h1, by omega, by omega, by omega,
    by omega, by omega, by omega, ?_, ?_⟩
  · rw [← hy]
    rfl
  · rw [← hy]
    rfl

theorem dayNumber_civil : dayNumber (civil n) = n := by
  obtain ⟨y, m, h0, h1, hm0, hm1, hday, -, -, -, hyear, hmonth⟩ := civil_spec n
  have hback : (if (civil n).month ≤ 2 then (civil n).year - 1 else (civil n).year) =
        y + (n + epoch) / 146097 * 400 ∧
      (if (civil n).month ≤ 2 then (civil n).month + 9 else (civil n).month - 3) = m := by
    rw [hmonth, hyear]
    split_ifs <;> omega
  have hera : (y + (n + epoch) / 146097 * 400) / 400 = (n + epoch) / 146097 ∧
      (y + (n + epoch) / 146097 * 400) % 400 = y := by omega
  simp only [dayNumber, hback, hera]
  omega

/-- The numbers of a date have two digits, and four for the year. -/
theorem civil_lt {n : ℤ} (h0 : 0 ≤ n) (h1 : n < 2932897) : 0 ≤ (civil n).year ∧ (civil n).year < 10000 ∧
    0 ≤ (civil n).month ∧ (civil n).month < 100 ∧ 0 ≤ (civil n).day ∧ (civil n).day < 100 := by
  obtain ⟨y, m, hy0, hy1, hm0, hm1, -, hd0, hd1, hlate, hyear, hmonth⟩ := civil_spec n
  have hera : 0 ≤ (n + epoch) / 146097 ∧ (n + epoch) / 146097 ≤ 24 := by
    unfold epoch
    omega
  -- the year 9999 starts in March, and ends before its days 306 and later
  have hlast : (n + epoch) / 146097 = 24 → y = 399 → m < 10 := by
    rintro h24 rfl
    unfold epoch daysBefore at *
    omega
  rw [hyear, hmonth]
  split_ifs <;> omega

end Civil

/-! ### Numbers of fixed widths -/

theorem length_decimalPadded (w n : ℕ) : (decimalPadded w n).length = w := by
  induction w with
  | zero => rfl
  | succ w ih => rw [decimalPadded, length_cons, ih]

theorem isDigit_of_mem_decimalPadded {w n : ℕ} : ∀ b ∈ decimalPadded w n, isDigit b = true := by
  induction w with
  | zero => exact forall_mem_nil _
  | succ w ih =>
    intro b hb
    rcases mem_cons.1 hb with rfl | hb
    · exact isDigit_digit (Nat.mod_lt _ (by decide))
    · exact ih b hb

theorem isASCII_digit {b : UInt8} (h : isDigit b = true) : decide (b < 128) = true := by
  have hle : b ≤ 57 := (of_decide_eq_true h).2
  exact decide_eq_true (UInt8.lt_of_le_of_lt hle (show (57 : UInt8) < 128 by decide))

theorem foldl_decimalPadded (w n m : ℕ) :
    (decimalPadded w n).foldl (fun m b => 10 * m + (b.toNat - 48)) m = m * 10 ^ w + n % 10 ^ w := by
  induction w generalizing m with
  | zero => simp [decimalPadded, Nat.mod_one]
  | succ w ih =>
    rw [decimalPadded, foldl_cons, ih, digit_toNat (Nat.mod_lt _ (by decide)), Nat.add_sub_cancel_left,
      Nat.pow_succ, Nat.mod_mul]
    ring

theorem digits_decimalPadded {w n : ℕ} (hw : 0 < w) (hn : n < 10 ^ w) : digits (decimalPadded w n) = some n := by
  have hne : decimalPadded w n ≠ [] := ne_nil_of_length_pos (by rwa [length_decimalPadded])
  have hall : (decimalPadded w n).all (fun b => 48 ≤ b ∧ b ≤ 57) = true :=
    all_eq_true.2 isDigit_of_mem_decimalPadded
  rw [digits, if_pos ⟨hne, hall⟩, foldl_decimalPadded, Nat.mod_eq_of_lt hn, Nat.zero_mul, Nat.zero_add]

/-- A width, and the byte that follows the number. -/
abbrev Field := ℕ × UInt8

def write : List Field → List ℕ → Str
  | f :: fs, n :: ns => decimalPadded f.1 n ++ f.2 :: write fs ns
  | _, _ => []

def read : List Field → Str → Option (List ℕ)
  | [], s => if s = [] then some [] else none
  | f :: fs, s =>
    if s[f.1]? = some f.2 then
      (digits (s.take f.1)).bind fun n => (read fs (s.drop (f.1 + 1))).map fun ns => n :: ns
    else none

/-- Numbers that have the widths of the fields are read as they were written. -/
theorem read_write {fs : List Field} {ns : List ℕ} (h : Forall₂ (fun f n => 0 < f.1 ∧ n < 10 ^ f.1) fs ns) :
    read fs (write fs ns) = some ns := by
  induction h with
  | nil => rfl
  | @cons f n fs ns hf _ ih =>
    have hlen := length_decimalPadded f.1 n
    have hbyte : (decimalPadded f.1 n ++ f.2 :: write fs ns)[f.1]? = some f.2 := by
      rw [getElem?_append_right hlen.le, hlen, Nat.sub_self, getElem?_cons_zero]
    rw [write, read, if_pos hbyte, take_left' hlen, digits_decimalPadded hf.1 hf.2, Option.bind_some,
      ← drop_drop, drop_left' hlen, drop_one, tail_cons, ih]
    rfl

/-! ### Texts -/

/-- `2006-01-02T15:04:05Z`. -/
def layout : List Field := [(4, 45), (2, 45), (2, 84), (2, 58), (2, 58), (2, 90)]

/-- The numbers in the text of a second. -/
def numbers (n : ℤ) : List ℕ :=
  let date := civil (n / 86400)
  [date.year.toNat, date.month.toNat, date.day.toNat, (n % 86400 / 3600).toNat, (n % 3600 / 60).toNat,
    (n % 60).toNat]

/-- The second that has these numbers. -/
def ofNumbers : List ℕ → Option ℤ
  | [y, m, d, hour, minute, sec] => some (dayNumber ⟨y, m, d⟩ * 86400 + hour * 3600 + minute * 60 + sec)
  | _ => none

/-- `Format(time.RFC3339)` of a second in UTC. -/
def format (n : ℤ) : Str := write layout (numbers n)

/-- `time.Parse(time.RFC3339, s)` for a text of seconds in UTC. Numbers that are no date or no time of a day
are those of another second, which has another text. -/
def parse (s : Str) : Option ℤ := ((read layout s).bind ofNumbers).filter fun n => format n = s

example : parse (str "1970-01-01T00:05:00Z") = some 300 ∧ parse (str "2023-02-29T00:00:00Z") = none ∧
    parse (str "2024-02-29T23:59:60Z") = none := by decide +kernel

theorem isASCII_write {fs : List Field} (h : ∀ f ∈ fs, f.2 < 128) (ns : List ℕ) :
    isASCII (write fs ns) = true := by
  induction fs generalizing ns with
  | nil => rfl
  | cons f fs ih =>
    cases ns with
    | nil => rfl
    | cons n ns =>
      have hdigits : (decimalPadded f.1 n).all (· < 128) = true :=
        all_eq_true.2 fun b hb => isASCII_digit (isDigit_of_mem_decimalPadded b hb)
      rw [write, isASCII, all_append, hdigits, all_cons, decide_eq_true (h f mem_cons_self)]
      exact ih (fun f' hf' => h f' (mem_cons_of_mem _ hf')) ns

theorem isASCII_format (n : ℤ) : isASCII (format n) = true := isASCII_write (by decide) _

theorem ofNumbers_numbers {n : ℤ} (h0 : 0 ≤ n) (h1 : n < 253402300800) : ofNumbers (numbers n) = some n := by
  have hdate := civil_lt (n := n / 86400) (by omega) (by omega)
  have hday := dayNumber_civil (n / 86400)
  simp only [numbers, ofNumbers, Int.toNat_of_nonneg hdate.1, Int.toNat_of_nonneg hdate.2.2.1,
    Int.toNat_of_nonneg hdate.2.2.2.2.1, hday]
  congr 1
  omega

/-- **A text is read as its second**, from 1970 on and before the year 10000. -/
theorem parse_format {n : ℤ} (h0 : 0 ≤ n) (h1 : n < 253402300800) : parse (format n) = some n := by
  have hdate := civil_lt (n := n / 86400) (by omega) (by omega)
  have hwidths : Forall₂ (fun f k => 0 < f.1 ∧ k < 10 ^ f.1) layout (numbers n) := by
    simp only [layout, numbers, forall₂_cons, Forall₂.nil, and_true]
    omega
  rw [parse, format, read_write hwidths, Option.bind_some, ofNumbers_numbers h0 h1]
  exact Option.filter_some_pos (decide_eq_true rfl)

end Wavicle.Lib.Rfc3339
