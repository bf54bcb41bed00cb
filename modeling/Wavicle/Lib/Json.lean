import Wavicle.Lib.Decimal
import Wavicle.Lib.Utf8

/-! # JSON

The texts of `encoding/json`: what `json.Marshal` writes for a tree, and what `json.Unmarshal` reads. A number
is its token. -/

namespace Wavicle.Lib

/-- A JSON document. The token of a number is kept as it is written. -/
inductive Json where
  | null
  | bool (b : Bool)
  | num (token : Str)
  | text (s : Str)
  | arr (elems : List Json)
  | obj (members : List (Str × Json))

namespace Json

/-! ### Texts -/

def hexDigit (n : ℕ) : UInt8 := if n < 10 then (48 + n).toUInt8 else (87 + n).toUInt8

/-- How `appendString` writes a rune: `<`, `>` and `&` are escaped for HTML, a byte that is not UTF-8 is
written as U+FFFD, and the two line separators of Unicode are escaped for JavaScript. -/
def escapeRune : Bool × Str → Str
  | (false, _) => str "\\ufffd"
  | (true, [b]) =>
    if b = 92 ∨ b = 34 then [92, b]
    else if b = 8 then str "\\b"
    else if b = 12 then str "\\f"
    else if b = 10 then str "\\n"
    else if b = 13 then str "\\r"
    else if b = 9 then str "\\t"
    else if b < 32 ∨ b = 60 ∨ b = 62 ∨ b = 38 then
      str "\\u00" ++ [hexDigit (b.toNat / 16), hexDigit (b.toNat % 16)]
    else [b]
  | (true, bytes) =>
    if bytes = [0xE2, 0x80, 0xA8] then str "\\u2028"
    else if bytes = [0xE2, 0x80, 0xA9] then str "\\u2029"
    else bytes

def escaped (s : Str) : Str := (runes s).flatMap escapeRune

def quote (s : Str) : Str := 34 :: (escaped s ++ [34])

/-- `json.Marshal`, for a tree. -/
def render : Json → Str
  | null => str "null"
  | bool true => str "true"
  | bool false => str "false"
  | num token => token
  | text s => quote s
  | arr elems => 91 :: renderElems elems
  | obj members => 123 :: renderMembers members
where
  renderElems : List Json → Str
    | [] => [93]
    | [j] => j.render ++ [93]
    | j :: js => j.render ++ 44 :: renderElems js
  renderMembers : List (Str × Json) → Str
    | [] => [125]
    | [(k, j)] => quote k ++ 58 :: (j.render ++ [125])
    | (k, j) :: ms => quote k ++ 58 :: (j.render ++ 44 :: renderMembers ms)

def coerce : Json → Json
  | null => null
  | bool b => bool b
  | num token => num token
  | text s => text (coerceUtf8 s)
  | arr elems => arr (coerceElems elems)
  | obj members => obj (coerceMembers members)
where
  coerceElems : List Json → List Json
    | [] => []
    | j :: js => j.coerce :: coerceElems js
  coerceMembers : List (Str × Json) → List (Str × Json)
    | [] => []
    | (k, j) :: ms => (coerceUtf8 k, j.coerce) :: coerceMembers ms

def depth : Json → ℕ
  | arr elems => depthElems elems + 1
  | obj members => depthMembers members + 1
  | _ => 0
where
  depthElems : List Json → ℕ
    | [] => 0
    | j :: js => max j.depth (depthElems js)
  depthMembers : List (Str × Json) → ℕ
    | [] => 0
    | (_, j) :: ms => max j.depth (depthMembers ms)

/-! ### Scanning -/

def isNumberByte (b : UInt8) : Bool := isDigit b || b ∈ [43, 45, 46, 69, 101]

def isExponent : Str → Bool
  | [] => true
  | b :: s =>
    let ds := match s with
      | 43 :: ds => ds
      | 45 :: ds => ds
      | ds => ds
    (b = 101 || b = 69) && !ds.isEmpty && ds.all isDigit

def isFraction : Str → Bool
  | 46 :: s => !(s.takeWhile isDigit).isEmpty && isExponent (s.dropWhile isDigit)
  | s => isExponent s

def isMagnitude (s : Str) : Bool :=
  !(s.takeWhile isDigit).isEmpty && ((s.takeWhile isDigit).length = 1 || s.head? ≠ some 48) &&
    isFraction (s.dropWhile isDigit)

def isNumber (s : Str) : Bool :=
  s.all isNumberByte && match s with
    | 45 :: t => isMagnitude t
    | t => isMagnitude t

example : isNumber (str "-12.5e+3") = true ∧ isNumber (str "012") = false ∧ isNumber (str "1.") = false := by
  decide

def isHex (b : UInt8) : Bool := isDigit b || (97 ≤ b && b ≤ 102) || (65 ≤ b && b ≤ 70)

/-- The states of the scanner inside a string: `stateInString`, `stateInStringEsc`, and those after `\u`, by
the digits that are left after the next one. -/
inductive StrState where
  | plain
  | escape
  | hex (left : ℕ)
  deriving DecidableEq

def StrState.next : StrState → UInt8 → Option StrState
  | .plain, b => if b = 92 then some .escape else if b < 32 then none else some .plain
  | .escape, b =>
    if b = 117 then some (.hex 3)
    else if b ∈ [98, 102, 110, 114, 116, 92, 47, 34] then some .plain
    else none
  | .hex 0, b => if isHex b then some .plain else none
  | .hex (n + 1), b => if isHex b then some (.hex n) else none

def scanString : StrState → Str → Option (Str × Str)
  | _, [] => none
  | st, b :: s =>
    if st = .plain ∧ b = 34 then some ([], s)
    else (st.next b).bind fun st' => (scanString st' s).map fun r => (b :: r.1, r.2)

/-! ### Unquoting -/

def hexVal (b : UInt8) : ℕ :=
  if isDigit b then b.toNat - 48 else if 97 ≤ b then b.toNat - 87 else b.toNat - 55

/-- `getu4`, on the digits. -/
def hex4 (a b c d : UInt8) : ℕ := ((hexVal a * 16 + hexVal b) * 16 + hexVal c) * 16 + hexVal d

/-- `utf8.EncodeRune`, for a rune that is no surrogate -/
def encodeRune (r : ℕ) : Str :=
  if r < 0x80 then [r.toUInt8]
  else if r < 0x800 then [(0xC0 + r / 64).toUInt8, (0x80 + r % 64).toUInt8]
  else if r < 0x10000 then
    [(0xE0 + r / 4096).toUInt8, (0x80 + r / 64 % 64).toUInt8, (0x80 + r % 64).toUInt8]
  else
    [(0xF0 + r / 262144).toUInt8, (0x80 + r / 4096 % 64).toUInt8, (0x80 + r / 64 % 64).toUInt8,
      (0x80 + r % 64).toUInt8]

def unescape (b : UInt8) : UInt8 :=
  if b = 98 then 8 else if b = 102 then 12 else if b = 110 then 10 else if b = 114 then 13
  else if b = 116 then 9 else b

/-- The rune of the surrogate `r` and the one that follows, if they are a pair. -/
def surrogatePair (r : ℕ) : Str → Option ℕ
  | 92 :: 117 :: a :: b :: c :: d :: _ =>
    let r' := hex4 a b c d
    if r < 0xDC00 ∧ 0xDC00 ≤ r' ∧ r' < 0xE000 then
      some ((r - 0xD800) * 1024 + (r' - 0xDC00) + 0x10000)
    else none
  | _ => none

/-- `unquoteBytes`, on the bytes between the quotes, which have been scanned. -/
def unquoteAux : ℕ → Str → Str
  | 0, _ => []
  | _, [] => []
  | n + 1, 92 :: 117 :: a :: b :: c :: d :: s =>
    let r := hex4 a b c d
    if 0xD800 ≤ r ∧ r < 0xE000 then
      match surrogatePair r s with
      | some r' => encodeRune r' ++ unquoteAux n (s.drop 6)
      | none => runeError ++ unquoteAux n s
    else encodeRune r ++ unquoteAux n s
  | n + 1, 92 :: b :: s => unescape b :: unquoteAux n s
  | n + 1, b :: s =>
    match encodingLength (b :: s) with
    | some w => (b :: s).take w ++ unquoteAux n ((b :: s).drop w)
    | none => runeError ++ unquoteAux n s

def unquote (s : Str) : Str := unquoteAux s.length s

example : unquote (str "a\\n\\u00e9\\ud83d\\ude00") = [97, 10, 0xC3, 0xA9, 0xF0, 0x9F, 0x98, 0x80] := by
  decide

/-! ### Parsing -/

def skipSpace (s : Str) : Str := s.dropWhile fun b => b = 32 || b = 9 || b = 10 || b = 13

def parseString (s : Str) : Option (Str × Str) :=
  (scanString .plain s).map fun r => (unquote r.1, r.2)

def nextByte (s : Str) : Option (UInt8 × Str) := (skipSpace s).head?.map fun b => (b, (skipSpace s).tail)

/-- What follows the byte `b`, if it is the next one but spaces. -/
def expect (b : UInt8) (s : Str) : Option Str := (nextByte s).bind fun p => if p.1 = b then some p.2 else none

/-- What comes after an element of a list: the end of the list, or a comma and more. -/
def parseTail {α : Type} (close : UInt8) (more : Str → Option (List α × Str)) (x : α) (s : Str) :
    Option (List α × Str) :=
  match expect close s with
  | some s => some ([x], s)
  | none => (expect 44 s).bind fun s => (more s).map fun r => (x :: r.1, r.2)

def parseNested {α : Type} (close : UInt8) (make : List α → Json) (inner : Str → Option (List α × Str))
    (s : Str) : Option (Json × Str) :=
  match expect close s with
  | some s => some (make [], s)
  | none => (inner s).map fun r => (make r.1, r.2)

def parseLiteral (s : Str) : Option (Json × Str) :=
  if str "null" <+: s then some (null, s.drop 4)
  else if str "true" <+: s then some (bool true, s.drop 4)
  else if str "false" <+: s then some (bool false, s.drop 5)
  else none

def parseNumber (s : Str) : Option (Json × Str) :=
  if isNumber (s.takeWhile isNumberByte) then
    some (num (s.takeWhile isNumberByte), s.dropWhile isNumberByte)
  else none

def parseScalar (b : UInt8) (s : Str) : Option (Json × Str) :=
  if b = 34 then (parseString s).map fun r => (text r.1, r.2)
  else if b = 45 ∨ isDigit b = true then parseNumber (b :: s)
  else parseLiteral (b :: s)

mutual

/-- A value, within the nesting that is left, and what follows it. -/
def parseValue : ℕ → ℕ → Str → Option (Json × Str)
  | 0, _, _ => none
  | fuel + 1, nesting, s => (nextByte s).bind fun p =>
    if p.1 = 91 then
      if nesting = 0 then none else parseNested 93 arr (parseElems fuel (nesting - 1)) p.2
    else if p.1 = 123 then
      if nesting = 0 then none else parseNested 125 obj (parseMembers fuel (nesting - 1)) p.2
    else parseScalar p.1 p.2

def parseElems : ℕ → ℕ → Str → Option (List Json × Str)
  | 0, _, _ => none
  | fuel + 1, nesting, s =>
    (parseValue fuel nesting s).bind fun r => parseTail 93 (parseElems fuel nesting) r.1 r.2

def parseMembers : ℕ → ℕ → Str → Option (List (Str × Json) × Str)
  | 0, _, _ => none
  | fuel + 1, nesting, s =>
    (expect 34 s).bind fun s => (parseString s).bind fun key => (expect 58 key.2).bind fun s =>
      (parseValue fuel nesting s).bind fun r =>
        parseTail 125 (parseMembers fuel nesting) (key.1, r.1) r.2

end

def maxNestingDepth : ℕ := 10000

def parse (s : Str) : Option Json :=
  (parseValue (2 * s.length) maxNestingDepth s).bind fun r => if skipSpace r.2 = [] then some r.1 else none

end Json

end Wavicle.Lib
