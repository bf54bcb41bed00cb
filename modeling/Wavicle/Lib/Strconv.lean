import Wavicle.Lib.Strings

/-! # Numbers in texts

More of Go's `strconv`, `strings` and `sort` packages. A function that returns an error returns `none` here;
nobody reads which error it was. -/

namespace Wavicle.Lib

/-- `strconv`, for `float64`: a double is given by its bits. -/
class Floats where
  /-- `strconv.ParseFloat(s, 64)` -/
  parseFloat : Str → Option UInt64
  /-- `strconv.FormatFloat(f, 'f', -1, 64)` -/
  formatFloat : UInt64 → Str

/-- The part of `strings` that depends on the Unicode spaces. -/
class Spaces where
  /-- `strings.TrimSpace(s)` -/
  trimSpace : Str → Str

/-! ### Integers -/

def digits (s : Str) : Option ℕ :=
  if s ≠ [] ∧ s.all (fun b => 48 ≤ b ∧ b ≤ 57) then
    some (s.foldl (fun n b => 10 * n + (b.toNat - 48)) 0)
  else none

def signed (negative : Bool) (n : ℕ) : Option Int64 :=
  if negative then if n ≤ 2 ^ 63 then some (.ofInt (-n)) else none
  else if n < 2 ^ 63 then some (.ofInt n) else none

/-- `strconv.ParseInt(s, 10, 64)`, and also `strconv.Atoi(s)` -/
def parseInt (s : Str) : Option Int64 :=
  match s with
  | 43 :: ds => (digits ds).bind (signed false)
  | 45 :: ds => (digits ds).bind (signed true)
  | ds => (digits ds).bind (signed false)

def formatInt (n : Int64) : Str := decimalInt n.toInt

example : parseInt (str "-42") = some (-42) := by decide

example : parseInt (str "9223372036854775808") = none := by decide

/-! ### Texts -/

def isSpace (b : UInt8) : Bool := b ∈ [9, 10, 11, 12, 13, 32]

def trimSpace [Spaces] (s : Str) : Str :=
  if isASCII s then ((s.dropWhile isSpace).reverse.dropWhile isSpace).reverse
  else Spaces.trimSpace s

/-- `strings.Trim(s, cutset)`, for an ASCII cutset -/
def trim (s cutset : Str) : Str :=
  ((s.dropWhile (· ∈ cutset)).reverse.dropWhile (· ∈ cutset)).reverse

def trimPrefix (s p : Str) : Str := if hasPrefix s p then s.drop p.length else s

/-- `strings.Index(s, t)`, with `none` for `-1` -/
def indexOf (t : Str) : Str → Option ℕ
  | [] => if t = [] then some 0 else none
  | b :: s => if hasPrefix (b :: s) t then some 0 else (indexOf t s).map (· + 1)

/-- `s[lo:hi]`, which panics if the bounds are not in order -/
def slice (s : Str) (lo hi : ℕ) : Option Str :=
  if lo ≤ hi ∧ hi ≤ s.length then some ((s.take hi).drop lo) else none

/-- `strings.Split(s, sep)`, for a separator of one byte -/
def split (sep : UInt8) : Str → List Str
  | [] => [[]]
  | b :: s =>
    if b = sep then [] :: split sep s
    else match split sep s with
      | [] => [[b]]
      | part :: parts => (b :: part) :: parts

/-- `strings.SplitN(s, sep, 2)` when it has two parts, for a separator of one byte -/
def splitOnce (sep : UInt8) (s : Str) : Option (Str × Str) :=
  if sep ∈ s then some (s.takeWhile (· ≠ sep), (s.dropWhile (· ≠ sep)).tail) else none

/-- The loop of `replaceAll`; the next `skip` bytes belong to an occurrence. -/
def replaceFrom (old new : Str) : ℕ → Str → Str
  | _, [] => []
  | skip + 1, _ :: s => replaceFrom old new skip s
  | 0, b :: s =>
    if hasPrefix (b :: s) old then new ++ replaceFrom old new (old.length - 1) s
    else b :: replaceFrom old new 0 s

/-- `strings.ReplaceAll(s, old, new)`, for a text `old` that is not empty -/
def replaceAll (s old new : Str) : Str := replaceFrom old new 0 s

example : replaceAll (str "a$id:$id") (str "$id") (str "$idx") = str "a$idx:$idx" := by decide

/-- `s[:strings.LastIndex(s, c)]`, when the index is positive -/
def beforeLast (c : UInt8) (s : Str) : Option Str :=
  match (s.reverse.dropWhile (· ≠ c)).tail.reverse with
  | [] => none
  | p => some p

example : beforeLast 58 (str "users:1:name") = some (str "users:1") := by decide

example : split 44 (str "a, b,") = [str "a", str " b", []] := by decide

def sortStrings (l : List Str) : List Str := l.insertionSort (· ≤ ·)

theorem sortStrings_perm {l m : List Str} (h : l.Perm m) : sortStrings l = sortStrings m := by
  refine List.Perm.eq_of_pairwise' (List.pairwise_insertionSort (· ≤ ·) _)
    (List.pairwise_insertionSort (· ≤ ·) _) ?_
  exact (List.perm_insertionSort _ _).trans (h.trans (List.perm_insertionSort _ _).symm)

/-! ### Comparing doubles -/

namespace Binary64

def isNaN (bits : UInt64) : Bool := 0x7FF0000000000000 < bits.toNat % 2 ^ 63

/-- A number by which doubles that are no NaN are compared; both zeros have 0. -/
def order (bits : UInt64) : ℤ :=
  if bits.toNat < 2 ^ 63 then bits.toNat else -(bits.toNat % 2 ^ 63 : ℕ)

def eq (x y : UInt64) : Bool := !isNaN x && !isNaN y && order x = order y

def lt (x y : UInt64) : Bool := !isNaN x && !isNaN y && order x < order y

end Binary64

end Wavicle.Lib
