import Wavicle.Lib.Bytes

/-! # Binary64 numbers

The little of IEEE 754 double arithmetic that integer code meets: rounding to the nearest representable number
with ties to even, the truncated product of an integer and a constant below one, and the decimal print of a
double with six places. -/

namespace Wavicle.Lib.Binary64

/-- `n / d` rounded to the nearest integer, ties to even. -/
def roundHalfEven (n d : ℕ) : ℕ :=
  let q := n / d
  let r := n % d
  if d < 2 * r ∨ (2 * r = d ∧ q % 2 = 1) then q + 1 else q

/-- The nearest number with a 53-bit significand, as significand and power of two. -/
def round53 (n : ℕ) : ℕ × ℕ :=
  let s := n.log2 + 1 - 53
  (roundHalfEven n (2 ^ s), s)

/-- `int64(float64(n) * c)` for the double `c = m / 2 ^ 53`: `n` is rounded to a double, so is the
product, and the result is cut off towards zero. -/
def mulTrunc (n m : ℕ) : ℕ :=
  let (a, s) := round53 n
  let (p, t) := round53 (a * m)
  p * 2 ^ (s + t) / 2 ^ 53

/-- The double nearest to `0.90`, in units of `2⁻⁵³`. -/
def ninetyPercent : ℕ := 8106479329266893

/-- The double nearest to `0.80`, in units of `2⁻⁵³`. -/
def eightyPercent : ℕ := 7205759403792794

/-- `int(float64(n) * 0.1)`: the double nearest to `0.1` is an eighth of that nearest to `0.80`. -/
def tenPercentTrunc (n : ℕ) : ℕ :=
  let (a, s) := round53 n
  let (p, t) := round53 (a * eightyPercent)
  p * 2 ^ (s + t) / 2 ^ 56

example : mulTrunc (4 * 1024 * 1024 * 1024) ninetyPercent = 3865470566 := by decide

/-! ### Powers of two -/

/-- The sign, the biased exponent and the fraction of a double's bits. -/
def fields (bits : UInt64) : Bool × ℕ × ℕ :=
  (2 ^ 63 ≤ bits.toNat, bits.toNat / 2 ^ 52 % 2 ^ 11, bits.toNat % 2 ^ 52)

/-- `10 ^ 6` times the magnitude of a finite double with these fields, rounded. -/
def millionths (exp frac : ℕ) : ℕ :=
  -- subnormals have no hidden bit and the exponent of the smallest normal number
  let m := if exp = 0 then frac else 2 ^ 52 + frac
  let e := max exp 1
  if 1075 ≤ e then m * 10 ^ 6 * 2 ^ (e - 1075) else roundHalfEven (m * 10 ^ 6) (2 ^ (1075 - e))

/-- `fmt.Sprintf("%f", x)`: six decimal places, correctly rounded. -/
def sprintfF (bits : UInt64) : Str :=
  let (neg, exp, frac) := fields bits
  if exp = 2047 then
    if frac ≠ 0 then str "NaN" else if neg then str "-Inf" else str "+Inf"
  else
    let n := millionths exp frac
    (if neg then str "-" else []) ++ decimal (n / 10 ^ 6) ++ str "." ++ decimalPadded 6 n

example : sprintfF 0x3FF8000000000000 = str "1.500000" := by decide

end Wavicle.Lib.Binary64
