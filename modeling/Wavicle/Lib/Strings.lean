import Wavicle.Lib.Bytes

/-! # String functions

The functions of Go's `strings` and `strconv` packages on byte strings. On ASCII text they are
defined; what they do beyond ASCII is read from the Unicode tables, which are a parameter. -/

namespace Wavicle.Lib

/-- The part of the standard library that depends on the Unicode tables. -/
class Unicode where
  /-- `strings.Map(unicode.ToUpper, s)` -/
  mapToUpper : Str → Str
  /-- `strconv.Quote(s)` -/
  quote : Str → Str

def isASCII (s : Str) : Bool := s.all (· < 128)

def upperByte (b : UInt8) : UInt8 := if 97 ≤ b ∧ b ≤ 122 then b - 32 else b

def toUpper [Unicode] (s : Str) : Str :=
  if isASCII s then s.map upperByte else Unicode.mapToUpper s

def hasPrefix (s p : Str) : Bool := p.isPrefixOf s

def hasSuffix (s p : Str) : Bool := p.isSuffixOf s

def trimSuffix (s p : Str) : Str := if hasSuffix s p then s.take (s.length - p.length) else s

def contains (s t : Str) : Bool := t <:+: s

/-- What comes after the last byte `c` in `s`, if there is one: `s[strings.LastIndex(s, c)+1:]` -/
def afterLast (c : UInt8) (s : Str) : Option Str :=
  if c ∈ s then some (s.reverse.takeWhile (· ≠ c)).reverse else none

def hexDigit (n : ℕ) : UInt8 := (if n < 10 then 48 + n else 87 + n).toUInt8

def quoteByte (b : UInt8) : Str :=
  if b = 34 ∨ b = 92 then [92, b]
  else if 32 ≤ b ∧ b < 127 then [b]
  else match b with
    | 7 => str "\\a"
    | 8 => str "\\b"
    | 9 => str "\\t"
    | 10 => str "\\n"
    | 11 => str "\\v"
    | 12 => str "\\f"
    | 13 => str "\\r"
    | _ => str "\\x" ++ [hexDigit (b.toNat / 16), hexDigit (b.toNat % 16)]

def quote [Unicode] (s : Str) : Str :=
  if isASCII s then [34] ++ s.flatMap quoteByte ++ [34] else Unicode.quote s

end Wavicle.Lib
