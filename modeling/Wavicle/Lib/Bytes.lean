import Mathlib

/-! # Byte strings

Strings of the modelled programs are sequences of arbitrary bytes, not of Unicode characters.
`str` turns an ASCII literal into its bytes; `bigEndian` and `decimal` are the two number formats
the programs write. -/

namespace Wavicle.Lib

abbrev Str := List UInt8

instance : LawfulBEq Str := inferInstance

def str (s : String) : Str := s.toList.map fun c => c.toNat.toUInt8

def bigEndian : ℕ → ℕ → Str
  | 0, _ => []
  | w + 1, n => (n / 256 ^ w).toUInt8 :: bigEndian w n

def decimal (n : ℕ) : Str := (Nat.toDigits 10 n).map fun c => c.toNat.toUInt8

def decimalInt (n : ℤ) : Str := (if n < 0 then str "-" else []) ++ decimal n.natAbs

def decimalPadded : ℕ → ℕ → Str
  | 0, _ => []
  | w + 1, n => (48 + n / 10 ^ w % 10).toUInt8 :: decimalPadded w n

end Wavicle.Lib
