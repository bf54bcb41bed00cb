import Wavicle.Lib.Strconv

/-! # Buffered input

`bufio.Reader` and `bufio.Scanner` over an input that is known as a whole: a reading operation takes the bytes
that are left and gives those that are left after it. -/

namespace Wavicle.Lib

open List

/-- Why a read ends. -/
inductive ReadError where
  | eof
  /-- `io.ErrUnexpectedEOF` -/
  | unexpectedEOF
  | failed (msg : Str)
  deriving DecidableEq

/-- `strings.TrimRight(s, cutset)`, for an ASCII cutset -/
def trimRight (s cutset : Str) : Str := (s.reverse.dropWhile (· ∈ cutset)).reverse

theorem trimRight_cons {b : UInt8} {cutset : Str} (hb : b ∉ cutset) (s : Str) :
    trimRight (b :: s) cutset = b :: trimRight s cutset := by
  rw [trimRight, reverse_cons, dropWhile_append, dropWhile_cons_of_neg (by simpa using hb)]
  split_ifs with hnil
  · rw [trimRight, isEmpty_iff.1 hnil]
    rfl
  · rw [reverse_append, trimRight]
    rfl

theorem trimRight_append {s t cutset : Str} (ht : ∀ b ∈ t, b ∈ cutset)
    (hs : ∀ b ∈ s, b ∉ cutset) : trimRight (s ++ t) cutset = s := by
  have hdrop : t.reverse.dropWhile (· ∈ cutset) = [] :=
    dropWhile_eq_nil_iff.2 fun b hb => decide_eq_true (ht b (mem_reverse.1 hb))
  have hkeep : s.reverse.dropWhile (· ∈ cutset) = s.reverse := by
    cases hr : s.reverse with
    | nil => rfl
    | cons b r =>
      have hb : b ∉ cutset := hs b (mem_reverse.1 (hr ▸ mem_cons_self))
      rw [dropWhile_cons_of_neg (by simpa using hb)]
  rw [trimRight, reverse_append, dropWhile_append, hdrop, isEmpty_nil, if_pos rfl, hkeep,
    reverse_reverse]

/-! ### Readers -/

/-- `r.ReadString('\n')`: the line with its end, and what is left; `none` is `io.EOF`, when all is read -/
def readString : Str → Option (Str × Str)
  | [] => none
  | b :: s => if b = 10 then some ([10], s) else (readString s).map fun p => (b :: p.1, p.2)

variable {l : Str}

theorem readString_append (hl : 10 ∉ l) (s : Str) : readString (l ++ 10 :: s) = some (l ++ [10], s) := by
  induction l with
  | nil => rfl
  | cons b l ih =>
    obtain ⟨hb, hl⟩ := not_or.1 (mem_cons.not.1 hl)
    rw [cons_append, readString, if_neg (Ne.symm hb), ih hl]
    rfl

/-- `io.ReadFull(r, make([]byte, n))`, for a positive `n` -/
def readFull (n : ℕ) (s : Str) : Except ReadError (Str × Str) :=
  if s = [] then .error .eof
  else if s.length < n then .error .unexpectedEOF
  else .ok (s.take n, s.drop n)

theorem readFull_append {d : Str} (hd : d ≠ []) (s : Str) : readFull d.length (d ++ s) = .ok (d, s) := by
  have hlen : ¬ (d ++ s).length < d.length := by simp
  rw [readFull, if_neg (by simp [hd]), if_neg hlen, take_left, drop_left]

/-! ### Scanners -/

/-- `bufio.ScanLines` on the bytes before a line end. -/
def dropCR (line : Str) : Str := if line.getLast? = some 13 then line.dropLast else line

/-- The bytes between the line ends; the bytes after the last one are a line if there are any. -/
def rawLines (s : Str) : List Str :=
  let parts := split 10 s
  if parts.getLast? = some [] then parts.dropLast else parts

/-- `bufio.Scanner` with a buffer that may grow to `max` bytes: the lines that it yields, and whether it
stops with `bufio.ErrTooLong`. A line fits if there is room for its end, too. -/
def scanLines (max : ℕ) (s : Str) : List Str × Bool :=
  let fits := (rawLines s).takeWhile fun l => l.length < max
  (fits.map dropCR, fits.length < (rawLines s).length)

example : scanLines 4 (str "ab\r\n\nabc\nabcd\nx") = ([str "ab", [], str "abc"], true) := by decide

theorem split_ne_nil (sep : UInt8) (s : Str) : split sep s ≠ [] := by
  cases s with
  | nil => exact cons_ne_nil _ _
  | cons b s =>
    rw [split]
    split_ifs
    · exact cons_ne_nil _ _
    · split <;> exact cons_ne_nil _ _

theorem split_cons_of_ne {sep b : UInt8} (hb : b ≠ sep) {s part : Str} {parts : List Str}
    (hs : split sep s = part :: parts) : split sep (b :: s) = (b :: part) :: parts := by
  rw [split, if_neg hb, hs]

theorem split_append {sep : UInt8} (hl : sep ∉ l) (s : Str) :
    split sep (l ++ sep :: s) = l :: split sep s := by
  induction l with
  | nil => exact if_pos rfl
  | cons b l ih =>
    rw [mem_cons, not_or] at hl
    obtain ⟨hb, hl⟩ := hl
    exact split_cons_of_ne (Ne.symm hb) (ih hl)

theorem split_of_not_mem {sep : UInt8} (hl : sep ∉ l) : split sep l = [l] := by
  induction l with
  | nil => rfl
  | cons b l ih =>
    rw [mem_cons, not_or] at hl
    obtain ⟨hb, hl⟩ := hl
    exact split_cons_of_ne (Ne.symm hb) (ih hl)

theorem rawLines_append (hl : 10 ∉ l) (s : Str) : rawLines (l ++ 10 :: s) = l :: rawLines s := by
  obtain ⟨part, parts, hparts⟩ := exists_cons_of_ne_nil (split_ne_nil 10 s)
  rw [rawLines, rawLines, split_append hl, hparts, List.getLast?_cons_cons]
  split_ifs <;> rfl

theorem rawLines_of_not_mem (hl : 10 ∉ l) (hne : l ≠ []) : rawLines l = [l] := by
  rw [rawLines, split_of_not_mem hl]
  exact if_neg (by simpa using hne)

def unlines (lines : List Str) : Str := lines.flatMap fun l => l ++ [10]

theorem rawLines_unlines {lines : List Str} (h : ∀ l ∈ lines, (10 : UInt8) ∉ l) (s : Str) :
    rawLines (unlines lines ++ s) = lines ++ rawLines s := by
  induction lines with
  | nil => rfl
  | cons l lines ih =>
    obtain ⟨hl, hlines⟩ := forall_mem_cons.1 h
    have hfirst : unlines (l :: lines) ++ s = l ++ 10 :: (unlines lines ++ s) := by
      simp [unlines]
    rw [hfirst, rawLines_append hl, ih hlines, cons_append]

theorem dropCR_of_not_mem (hl : (13 : UInt8) ∉ l) : dropCR l = l :=
  if_neg fun hlast => hl (mem_of_getLast? hlast)

end Wavicle.Lib
