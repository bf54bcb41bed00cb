import Wavicle.Lib.Strconv

/-! # UTF-8

Go reads the runes of a string from its bytes. A byte that begins no valid encoding is a rune of its own,
`utf8.RuneError`. -/

namespace Wavicle.Lib

open List

def isTail (lo hi : UInt8) (b : Option UInt8) : Bool :=
  match b with
  | some b => lo ≤ b ∧ b ≤ hi
  | none => false

/-- The number of bytes of the encoding that `s` begins with, and `none` if there is no valid one. -/
def encodingLength (s : Str) : Option ℕ :=
  match s with
  | [] => none
  | b₀ :: rest =>
    let tail (i : ℕ) : Bool := isTail 0x80 0xBF rest[i]?
    if b₀ < 0x80 then some 1
    else if 0xC2 ≤ b₀ ∧ b₀ ≤ 0xDF then if tail 0 then some 2 else none
    else if b₀ = 0xE0 then if isTail 0xA0 0xBF rest[0]? && tail 1 then some 3 else none
    else if b₀ = 0xED then if isTail 0x80 0x9F rest[0]? && tail 1 then some 3 else none
    else if 0xE1 ≤ b₀ ∧ b₀ ≤ 0xEF then if tail 0 && tail 1 then some 3 else none
    else if b₀ = 0xF0 then if isTail 0x90 0xBF rest[0]? && tail 1 && tail 2 then some 4 else none
    else if b₀ = 0xF4 then if isTail 0x80 0x8F rest[0]? && tail 1 && tail 2 then some 4 else none
    else if 0xF1 ≤ b₀ ∧ b₀ ≤ 0xF3 then if tail 0 && tail 1 && tail 2 then some 4 else none
    else none

/-- The bytes of a string, rune by rune; `true` marks the valid encodings. -/
def runesAux : ℕ → Str → List (Bool × Str)
  | 0, _ => []
  | _, [] => []
  | n + 1, b :: s =>
    match encodingLength (b :: s) with
    | some w => (true, (b :: s).take w) :: runesAux n ((b :: s).drop w)
    | none => (false, [b]) :: runesAux n s

def runes (s : Str) : List (Bool × Str) := runesAux s.length s

def validString (s : Str) : Bool := (runes s).all (·.1)

/-- The encodings of the runes with `unicode.IsSpace`. -/
def spaceRunes : List Str :=
  [[0x09], [0x0A], [0x0B], [0x0C], [0x0D], [0x20], [0xC2, 0x85], [0xC2, 0xA0], [0xE1, 0x9A, 0x80],
    [0xE2, 0x80, 0x80], [0xE2, 0x80, 0x81], [0xE2, 0x80, 0x82], [0xE2, 0x80, 0x83], [0xE2, 0x80, 0x84],
    [0xE2, 0x80, 0x85], [0xE2, 0x80, 0x86], [0xE2, 0x80, 0x87], [0xE2, 0x80, 0x88], [0xE2, 0x80, 0x89],
    [0xE2, 0x80, 0x8A], [0xE2, 0x80, 0xA8], [0xE2, 0x80, 0xA9], [0xE2, 0x80, 0xAF], [0xE2, 0x81, 0x9F],
    [0xE3, 0x80, 0x80]]

def fields (s : Str) : List Str :=
  ((((runes s).map (·.2)).splitOnP (· ∈ spaceRunes)).filter (· ≠ [])).map List.flatten

example : fields (str " user  bob on\t+GET ") = [str "user", str "bob", str "on", str "+GET"] := by
  decide +kernel

/-- `utf8.RuneError`, as it is encoded -/
def runeError : Str := [0xEF, 0xBF, 0xBD]

/-- Each byte that begins no valid encoding is replaced, as `encoding/json` does. -/
def coerceUtf8 (s : Str) : Str := (runes s).flatMap fun r => if r.1 then r.2 else runeError

/-! ### Encodings

Whether an encoding is valid depends on its own bytes only (`encodingLength_eq_some`). -/

def tailBounds (b₀ : UInt8) : Option (List (UInt8 × UInt8)) :=
  if b₀ < 0x80 then some []
  else if 0xC2 ≤ b₀ ∧ b₀ ≤ 0xDF then some [(0x80, 0xBF)]
  else if b₀ = 0xE0 then some [(0xA0, 0xBF), (0x80, 0xBF)]
  else if b₀ = 0xED then some [(0x80, 0x9F), (0x80, 0xBF)]
  else if 0xE1 ≤ b₀ ∧ b₀ ≤ 0xEF then some [(0x80, 0xBF), (0x80, 0xBF)]
  else if b₀ = 0xF0 then some [(0x90, 0xBF), (0x80, 0xBF), (0x80, 0xBF)]
  else if b₀ = 0xF4 then some [(0x80, 0x8F), (0x80, 0xBF), (0x80, 0xBF)]
  else if 0xF1 ≤ b₀ ∧ b₀ ≤ 0xF3 then some [(0x80, 0xBF), (0x80, 0xBF), (0x80, 0xBF)]
  else none

def tailsFit : List (UInt8 × UInt8) → Str → Bool
  | [], _ => true
  | (lo, hi) :: bounds, s => isTail lo hi s[0]? && tailsFit bounds s.tail

theorem encodingLength_cons (b₀ : UInt8) (s : Str) : encodingLength (b₀ :: s) =
    (tailBounds b₀).bind fun bounds => if tailsFit bounds s then some (bounds.length + 1) else none := by
  have hbind : ∀ (c : Prop) [Decidable c] (x y : Option (List (UInt8 × UInt8)))
      (f : List (UInt8 × UInt8) → Option ℕ),
      (if c then x else y).bind f = if c then x.bind f else y.bind f := by
    intro c _ x y f
    split_ifs <;> rfl
  simp only [encodingLength, tailBounds, hbind, Option.bind_some, Option.bind_none, tailsFit,
    length_cons, length_nil, List.getElem?_tail, Bool.and_true, if_true, Nat.zero_add,
    Nat.reduceAdd, Bool.and_assoc]

theorem length_le_of_tailsFit : ∀ {bounds : List (UInt8 × UInt8)} {s : Str}, tailsFit bounds s = true →
    bounds.length ≤ s.length
  | [], _, _ => Nat.zero_le _
  | _ :: bounds, [], h => by
    obtain ⟨h, -⟩ := Bool.and_eq_true_iff.1 h
    cases h
  | _ :: bounds, _ :: s, h => by
    obtain ⟨-, h⟩ := Bool.and_eq_true_iff.1 h
    exact Nat.succ_le_succ (length_le_of_tailsFit h)

theorem tailsFit_take (t : Str) : ∀ {bounds : List (UInt8 × UInt8)} {s : Str},
    tailsFit bounds s = true → tailsFit bounds (s.take bounds.length ++ t) = true
  | [], _, _ => rfl
  | _ :: bounds, [], h => by
    obtain ⟨h, -⟩ := Bool.and_eq_true_iff.1 h
    cases h
  | _ :: bounds, _ :: s, h => by
    obtain ⟨hhead, htail⟩ := Bool.and_eq_true_iff.1 h
    exact Bool.and_eq_true_iff.2 ⟨hhead, tailsFit_take t htail⟩

variable {s : Str} {w : ℕ} {bounds : List (UInt8 × UInt8)} {b : UInt8}

theorem encodingLength_eq_some (h : encodingLength s = some w) :
    0 < w ∧ w ≤ s.length ∧ ∀ t, encodingLength (s.take w ++ t) = some w := by
  cases s with
  | nil => cases h
  | cons b s =>
    rw [encodingLength_cons] at h
    obtain ⟨bounds, hbounds, hfit⟩ := Option.bind_eq_some_iff.1 h
    split_ifs at hfit with hs
    obtain rfl := Option.some.inj hfit
    refine ⟨Nat.succ_pos _, Nat.succ_le_succ (length_le_of_tailsFit hs), fun t => ?_⟩
    rw [take_succ_cons, cons_append, encodingLength_cons, hbounds, Option.bind_some,
      if_pos (tailsFit_take t hs)]

theorem tailBounds_eq_some (h : tailBounds b = some bounds) :
    bounds = [] ∧ b < 0x80 ∨ bounds ≠ [] ∧ 0x80 ≤ b ∧ ∀ p ∈ bounds, 0x80 ≤ p.1 := by
  by_cases hb : b < 0x80
  · rw [tailBounds, if_pos hb] at h
    exact Or.inl ⟨(Option.some.inj h).symm, hb⟩
  · refine Or.inr ?_
    unfold tailBounds at h
    split_ifs at h
    all_goals
      obtain rfl := Option.some.inj h
      exact ⟨cons_ne_nil _ _, UInt8.not_lt.1 hb, by simp⟩

theorem le_of_tailsFit (hbounds : ∀ p ∈ bounds, 0x80 ≤ p.1) (h : tailsFit bounds s = true) :
    ∀ b ∈ s.take bounds.length, 0x80 ≤ b := by
  induction bounds generalizing s with
  | nil => exact fun b hb => absurd hb (by simp)
  | cons p bounds ih =>
    obtain ⟨hhead, htail⟩ := Bool.and_eq_true_iff.1 h
    cases s with
    | nil => cases hhead
    | cons c s =>
      have hc : p.1 ≤ c := (of_decide_eq_true hhead).1
      intro b hb
      rcases mem_cons.1 hb with rfl | hb
      · exact UInt8.le_trans (hbounds p (.head _)) hc
      · exact ih (forall_mem_cons.1 hbounds).2 htail b hb

theorem encodingLength_bytes (h : encodingLength s = some w) :
    (∃ b t, s = b :: t ∧ w = 1 ∧ b < 0x80) ∨ 2 ≤ w ∧ ∀ b ∈ s.take w, 0x80 ≤ b := by
  cases s with
  | nil => cases h
  | cons b s =>
    rw [encodingLength_cons] at h
    obtain ⟨bounds, hbounds, hfit⟩ := Option.bind_eq_some_iff.1 h
    split_ifs at hfit with hs
    obtain rfl := Option.some.inj hfit
    rcases tailBounds_eq_some hbounds with ⟨rfl, hb⟩ | ⟨hne, hb, hlo⟩
    · exact Or.inl ⟨b, s, rfl, rfl, hb⟩
    · refine Or.inr ⟨Nat.succ_le_succ (length_pos_iff.2 hne), fun c hc => ?_⟩
      rcases mem_cons.1 hc with rfl | hc
      · exact hb
      · exact le_of_tailsFit hlo hs c hc

/-! ### Cutting a string into runes -/

theorem runesAux_congr : ∀ {n m : ℕ} {s : Str}, s.length ≤ n → s.length ≤ m →
    runesAux n s = runesAux m s
  | 0, 0, [], _, _ => rfl
  | 0, _ + 1, [], _, _ => rfl
  | _ + 1, 0, [], _, _ => rfl
  | _ + 1, _ + 1, [], _, _ => rfl
  | n + 1, m + 1, b :: s, hn, hm => by
    unfold runesAux
    cases henc : encodingLength (b :: s) with
    | none => exact congrArg _ (runesAux_congr (Nat.le_of_succ_le_succ hn) (Nat.le_of_succ_le_succ hm))
    | some w =>
      obtain ⟨hpos, -, -⟩ := encodingLength_eq_some henc
      have hlen : ((b :: s).drop w).length ≤ s.length := by
        rw [length_drop, length_cons]
        omega
      exact congrArg _ (runesAux_congr (hlen.trans (Nat.le_of_succ_le_succ hn))
        (hlen.trans (Nat.le_of_succ_le_succ hm)))

theorem runes_of_encodingLength (h : encodingLength s = some w) :
    runes s = (true, s.take w) :: runes (s.drop w) := by
  cases s with
  | nil => cases h
  | cons b s =>
    obtain ⟨hpos, -, -⟩ := encodingLength_eq_some h
    have hlen : ((b :: s).drop w).length ≤ s.length := by
      rw [length_drop, length_cons]
      omega
    rw [runes, length_cons, runesAux, h]
    exact congrArg _ (runesAux_congr hlen le_rfl)

theorem runes_of_encodingLength_none (h : encodingLength (b :: s) = none) :
    runes (b :: s) = (false, [b]) :: runes s := by
  rw [runes, length_cons, runesAux, h]
  rfl

theorem runes_induction {P : Str → Prop} (hnil : P [])
    (hvalid : ∀ s w, encodingLength s = some w → P (s.drop w) → P s)
    (hinvalid : ∀ b s, encodingLength (b :: s) = none → P s → P (b :: s)) (s : Str) : P s := by
  induction hn : s.length using Nat.strong_induction_on generalizing s with
  | _ n ih =>
    cases s with
    | nil => exact hnil
    | cons b s =>
      subst hn
      cases henc : encodingLength (b :: s) with
      | none => exact hinvalid b s henc (ih _ (by simp) s rfl)
      | some w =>
        obtain ⟨hpos, -, -⟩ := encodingLength_eq_some henc
        exact hvalid _ w henc (ih _ (by rw [length_drop, length_cons]; omega) _ rfl)

/-! ### Coercion -/

theorem coerceUtf8_of_encodingLength (h : encodingLength s = some w) :
    coerceUtf8 s = s.take w ++ coerceUtf8 (s.drop w) := by
  unfold coerceUtf8
  rw [runes_of_encodingLength h]
  rfl

theorem coerceUtf8_of_encodingLength_none (h : encodingLength (b :: s) = none) :
    coerceUtf8 (b :: s) = runeError ++ coerceUtf8 s := by
  unfold coerceUtf8
  rw [runes_of_encodingLength_none h]
  rfl

theorem validString_of_encodingLength (h : encodingLength s = some w) :
    validString s = validString (s.drop w) := by
  unfold validString
  rw [runes_of_encodingLength h]
  rfl

theorem validString_of_encodingLength_none (h : encodingLength (b :: s) = none) :
    validString (b :: s) = false := by
  unfold validString
  rw [runes_of_encodingLength_none h]
  rfl

theorem length_le_coerceUtf8 (s : Str) : s.length ≤ (coerceUtf8 s).length := by
  induction s using runes_induction with
  | hnil => exact le_rfl
  | hvalid s w h ih =>
    have hcut := congrArg List.length (take_append_drop w s)
    rw [coerceUtf8_of_encodingLength h, length_append]
    rw [length_append] at hcut
    omega
  | hinvalid b s h ih =>
    rw [coerceUtf8_of_encodingLength_none h, length_append, length_cons]
    change s.length + 1 ≤ 3 + _
    omega

theorem coerceUtf8_eq_self_iff : coerceUtf8 s = s ↔ validString s = true := by
  induction s using runes_induction with
  | hnil => exact iff_of_true rfl rfl
  | hvalid s w h ih =>
    rw [coerceUtf8_of_encodingLength h, validString_of_encodingLength h, ← ih]
    constructor
    · intro heq
      have hcut : s.take w ++ coerceUtf8 (s.drop w) = s.take w ++ s.drop w := by
        rw [heq, take_append_drop]
      exact append_cancel_left hcut
    · intro heq
      rw [heq, take_append_drop]
  | hinvalid b s h ih =>
    rw [validString_of_encodingLength_none h, coerceUtf8_of_encodingLength_none h]
    refine iff_of_false (fun heq => ?_) Bool.false_ne_true
    have hlen := congrArg List.length heq
    have hle := length_le_coerceUtf8 s
    rw [length_append, length_cons] at hlen
    change 3 + _ = _ at hlen
    omega

theorem validString_coerceUtf8 (s : Str) : validString (coerceUtf8 s) = true := by
  induction s using runes_induction with
  | hnil => rfl
  | hvalid s w h ih =>
    obtain ⟨-, hle, hctx⟩ := encodingLength_eq_some h
    have hlen : (s.take w).length = w := length_take_of_le hle
    rw [coerceUtf8_of_encodingLength h, validString_of_encodingLength (hctx _), drop_left' hlen]
    exact ih
  | hinvalid b s h ih =>
    have herr : encodingLength (runeError ++ coerceUtf8 s) = some 3 := rfl
    rw [coerceUtf8_of_encodingLength_none h, validString_of_encodingLength herr]
    exact ih

theorem validString_of_isASCII : ∀ {s : Str}, isASCII s = true → validString s = true
  | [], _ => rfl
  | b :: s, h => by
    obtain ⟨hb, hs⟩ : b < 128 ∧ isASCII s = true := by simpa [isASCII] using h
    have henc : encodingLength (b :: s) = some 1 := if_pos hb
    rw [validString_of_encodingLength henc]
    exact validString_of_isASCII hs

/-! ### Words -/

theorem not_of_mem_splitOnP {α : Type} {p : α → Bool} {l : List α} : ∀ part ∈ l.splitOnP p, ∀ a ∈ part,
    a ∈ l ∧ p a = false := by
  induction l with
  | nil => simp
  | cons b l ih =>
    rw [splitOnP_cons_eq_if_modifyHead]
    split_ifs with hb
    · exact forall_mem_cons.2 ⟨by simp, fun part hpart a ha =>
        (ih part hpart a ha).imp_left (mem_cons_of_mem b)⟩
    · cases hsplit : l.splitOnP p with
      | nil => simp
      | cons first rest =>
        rw [hsplit, forall_mem_cons] at ih
        refine forall_mem_cons.2 ⟨forall_mem_cons.2 ⟨?_, fun a ha => ?_⟩, fun part hpart a ha => ?_⟩
        · exact ⟨mem_cons_self, Bool.eq_false_iff.2 hb⟩
        · exact (ih.1 a ha).imp_left (mem_cons_of_mem b)
        · exact (ih.2 part hpart a ha).imp_left (mem_cons_of_mem b)

/-- A byte below `0x80` is a rune of its own. -/
theorem rune_of_lt (s : Str) : ∀ r ∈ runes s, ∀ b ∈ r.2, b < 0x80 → r.2 = [b] := by
  induction s using runes_induction with
  | hnil => simp [runes, runesAux]
  | hvalid s w h ih =>
    rw [runes_of_encodingLength h, forall_mem_cons]
    refine ⟨fun b hb hlt => ?_, ih⟩
    rcases encodingLength_bytes h with ⟨c, t, rfl, rfl, -⟩ | ⟨-, hle⟩
    · rw [mem_singleton.1 hb]
      rfl
    · exact absurd hlt (UInt8.not_lt.2 (hle b hb))
  | hinvalid c s h ih =>
    rw [runes_of_encodingLength_none h, forall_mem_cons]
    exact ⟨fun b hb _ => by rw [mem_singleton.1 hb], ih⟩

theorem not_mem_of_mem_fields {s word : Str} (h : word ∈ fields s) : ∀ b ∈ word, b ∉ str " \r\n" := by
  intro b hb hspace
  obtain ⟨part, hpart, rfl⟩ := mem_map.1 h
  obtain ⟨r, hr, hbr⟩ := mem_flatten.1 hb
  obtain ⟨hmem, hnot⟩ := not_of_mem_splitOnP part (mem_filter.1 hpart).1 r hr
  obtain ⟨rune, hrune, rfl⟩ := mem_map.1 hmem
  have hcases : b = 32 ∨ b = 13 ∨ b = 10 := by simpa [str] using hspace
  have hlt : b < 0x80 := by rcases hcases with rfl | rfl | rfl <;> decide
  rw [rune_of_lt s rune hrune b hbr hlt] at hnot
  rcases hcases with rfl | rfl | rfl <;> exact absurd hnot (by decide)

end Wavicle.Lib
