import Wavicle.Lib.Json

/-! # Reading JSON texts back

* `WellFormed`: the tokens of numbers are numbers.
* `parse_render`: a document that is not too deep is read back, with its texts made UTF-8.
* `printable_render`: a text has no control bytes, and so no line ends. -/

namespace Wavicle.Lib.Json

open List

/-! ### Strings -/

/-- The scanner of strings takes `u` in and goes on. -/
def Passes (u : Str) : Prop :=
  ∀ t, scanString .plain (u ++ t) = (scanString .plain t).map fun r => (u ++ r.1, r.2)

/-- A part of a string that stands for `v`. -/
def StandsFor (u v : Str) : Prop := ∀ n t, unquoteAux (n + 1) (u ++ t) = v ++ unquoteAux n t

theorem Passes.append {u v : Str} (hu : Passes u) (hv : Passes v) : Passes (u ++ v) := by
  intro t
  rw [append_assoc, hu, hv, Option.map_map]
  exact congrArg (Option.map · _) (funext fun r => Prod.ext (append_assoc ..).symm rfl)

theorem passes_nil : Passes [] := fun t => by
  cases h : scanString .plain t <;> simp [h]

variable {b : UInt8} {n : ℕ} {s : Str} {w : ℕ}

theorem scanString_cons {st st' : StrState} (hend : ¬ (st = .plain ∧ b = 34))
    (hnext : st.next b = some st') (s : Str) :
    scanString st (b :: s) = (scanString st' s).map fun r => (b :: r.1, r.2) := by
  rw [scanString, if_neg hend, hnext, Option.bind_some]

theorem passes_plain {u : Str} (hu : ∀ b ∈ u, 32 ≤ b ∧ b ≠ 34 ∧ b ≠ 92) : Passes u := by
  induction u with
  | nil => exact passes_nil
  | cons b u ih =>
    intro t
    obtain ⟨hle, hquote, hslash⟩ := hu b (.head _)
    have hnext : StrState.next .plain b = some .plain := by
      rw [StrState.next, if_neg hslash, if_neg (UInt8.not_lt.2 hle)]
    rw [cons_append, scanString_cons (fun h => hquote h.2) hnext,
      ih (forall_mem_cons.1 hu).2, Option.map_map]
    rfl

theorem passes_escape (hb : b ∈ [98, 102, 110, 114, 116, 92, 47, 34]) : Passes [92, b] := by
  intro t
  have hne : b ≠ 117 := by rintro rfl; revert hb; decide
  have hnext : StrState.next .escape b = some .plain := by rw [StrState.next, if_neg hne, if_pos hb]
  rw [cons_append, cons_append, nil_append, scanString_cons (by decide) rfl,
    scanString_cons (by simp) hnext, Option.map_map]
  rfl

theorem isHex_hexDigit (h : n < 16) : isHex (hexDigit n) = true := by
  interval_cases n <;> rfl

theorem hexVal_hexDigit (h : n < 16) : hexVal (hexDigit n) = n := by
  interval_cases n <;> rfl

theorem passes_hex {a c d : UInt8} (ha : isHex a = true) (hb : isHex b = true) (hc : isHex c = true)
    (hd : isHex d = true) : Passes [92, 117, a, b, c, d] := by
  intro t
  have hnext : ∀ n {e : UInt8}, isHex e = true → StrState.next (.hex (n + 1)) e = some (.hex n) := by
    intro n e he
    rw [StrState.next, if_pos he]
  have hlast : StrState.next (.hex 0) d = some .plain := by rw [StrState.next, if_pos hd]
  simp only [cons_append, nil_append]
  rw [scanString_cons (by decide) rfl, scanString_cons (by decide) rfl,
    scanString_cons (by simp) (hnext 2 ha), scanString_cons (by simp) (hnext 1 hb),
    scanString_cons (by simp) (hnext 0 hc), scanString_cons (by simp) hlast]
  simp only [Option.map_map]
  rfl

/-! ### Unquoting -/

theorem unquoteAux_of_encodingLength (hb : b ≠ 92) (hw : encodingLength (b :: s) = some w) :
    unquoteAux (n + 1) (b :: s) = (b :: s).take w ++ unquoteAux n ((b :: s).drop w) := by
  rw [unquoteAux]
  · simp only [hw]
  · exact fun _ _ _ _ _ heq => absurd heq hb
  · exact fun _ _ heq => absurd heq hb

theorem standsFor_escape (hb : b ≠ 117) : StandsFor [92, b] [unescape b] := by
  intro n t
  rw [cons_append, cons_append, nil_append, unquoteAux]
  · rfl
  · exact fun _ _ _ _ _ heq => absurd heq hb

theorem standsFor_hex {a c d : UInt8} (hsurrogate : ¬ (0xD800 ≤ hex4 a b c d ∧ hex4 a b c d < 0xE000)) :
    StandsFor [92, 117, a, b, c, d] (encodeRune (hex4 a b c d)) := by
  intro n t
  simp only [cons_append, nil_append]
  rw [unquoteAux]
  simp only [if_neg hsurrogate]

theorem standsFor_self (hw : encodingLength s = some w) (hs : s.head? ≠ some 92) :
    StandsFor (s.take w) (s.take w) := by
  intro n t
  obtain ⟨hpos, hle, hctx⟩ := encodingLength_eq_some hw
  have hlen : (s.take w).length = w := length_take_of_le hle
  cases s with
  | nil => cases hw
  | cons b s =>
    obtain ⟨v, rfl⟩ := Nat.exists_eq_succ_of_ne_zero hpos.ne'
    have hb : b ≠ 92 := fun heq => hs (congrArg some heq)
    have henc := hctx t
    rw [take_succ_cons, cons_append] at henc ⊢
    rw [unquoteAux_of_encodingLength hb henc, take_succ_cons, drop_succ_cons]
    have hlen' : (s.take v).length = v := by simpa using hlen
    rw [take_left' hlen', drop_left' hlen', cons_append]

/-! ### Runes -/

theorem escape_letter {c : UInt8} (hc : c ∈ [98, 102, 110, 114, 116, 92, 47, 34])
    (hb : unescape c = b) : Passes [92, c] ∧ StandsFor [92, c] [b] := by
  have hne : c ≠ 117 := by rintro rfl; revert hc; decide
  exact ⟨passes_escape hc, hb ▸ standsFor_escape hne⟩

theorem escape_digits (hb : b < 0x80) :
    Passes [92, 117, 48, 48, hexDigit (b.toNat / 16), hexDigit (b.toNat % 16)] ∧
      StandsFor [92, 117, 48, 48, hexDigit (b.toNat / 16), hexDigit (b.toNat % 16)] [b] := by
  have hlt : b.toNat < 128 := UInt8.lt_iff_toNat_lt.1 hb
  have hhigh : b.toNat / 16 < 16 := by omega
  have hlow : b.toNat % 16 < 16 := by omega
  have hval : hex4 48 48 (hexDigit (b.toNat / 16)) (hexDigit (b.toNat % 16)) = b.toNat := by
    rw [hex4, hexVal_hexDigit hhigh, hexVal_hexDigit hlow]
    change ((0 * 16 + 0) * 16 + b.toNat / 16) * 16 + b.toNat % 16 = b.toNat
    omega
  have hrune : encodeRune (hex4 48 48 (hexDigit (b.toNat / 16)) (hexDigit (b.toNat % 16))) = [b] := by
    rw [hval, encodeRune, if_pos hlt]
    simp
  refine ⟨passes_hex rfl rfl (isHex_hexDigit hhigh) (isHex_hexDigit hlow), ?_⟩
  rw [← hrune]
  exact standsFor_hex (by rw [hval]; omega)

theorem escapeRune_ascii (hb : b < 0x80) :
    Passes (escapeRune (true, [b])) ∧ StandsFor (escapeRune (true, [b])) [b] := by
  rw [escapeRune]
  split_ifs with hslash h8 h12 h10 h13 h9 hhex
  · rcases hslash with rfl | rfl
    · exact escape_letter (by decide) rfl
    · exact escape_letter (by decide) rfl
  · exact h8 ▸ escape_letter (c := 98) (by decide) rfl
  · exact h12 ▸ escape_letter (c := 102) (by decide) rfl
  · exact h10 ▸ escape_letter (c := 110) (by decide) rfl
  · exact h13 ▸ escape_letter (c := 114) (by decide) rfl
  · exact h9 ▸ escape_letter (c := 116) (by decide) rfl
  · exact escape_digits hb
  · obtain ⟨hne92, hne34⟩ := not_or.1 hslash
    have hle : 32 ≤ b := UInt8.not_lt.1 fun hlt => hhex (Or.inl hlt)
    have henc : encodingLength [b] = some 1 := if_pos hb
    refine ⟨passes_plain fun c hc => ?_, standsFor_self henc fun heq => hne92 (Option.some.inj heq)⟩
    obtain rfl := mem_singleton.1 hc
    exact ⟨hle, hne34, hne92⟩

theorem escapeRune_bytes (hw : encodingLength s = some w) (h2 : 2 ≤ w) (hbytes : ∀ b ∈ s.take w, 0x80 ≤ b) :
    Passes (escapeRune (true, s.take w)) ∧ StandsFor (escapeRune (true, s.take w)) (s.take w) := by
  obtain ⟨-, hle, -⟩ := encodingLength_eq_some hw
  have hlen : (s.take w).length = w := length_take_of_le hle
  have hescape : escapeRune (true, s.take w) =
      if s.take w = [0xE2, 0x80, 0xA8] then str "\\u2028"
      else if s.take w = [0xE2, 0x80, 0xA9] then str "\\u2029" else s.take w := by
    rw [escapeRune]
    intro b hb
    rw [hb, length_singleton] at hlen
    omega
  rw [hescape]
  split_ifs with h8 h9
  · rw [h8]
    exact ⟨passes_hex rfl rfl rfl rfl, standsFor_hex (by decide)⟩
  · rw [h9]
    exact ⟨passes_hex rfl rfl rfl rfl, standsFor_hex (by decide)⟩
  · have hne : ∀ b c : UInt8, 0x80 ≤ b → c < 0x80 → b ≠ c := by
      rintro b c hb hc rfl
      exact UInt8.not_lt.2 hb hc
    refine ⟨passes_plain fun b hb => ?_, standsFor_self hw fun hhead => ?_⟩
    · have hb' := hbytes b hb
      exact ⟨UInt8.le_trans (by decide) hb', hne b 34 hb' (by decide), hne b 92 hb' (by decide)⟩
    · have hmem : (92 : UInt8) ∈ s.take w := by
        cases s with
        | nil => cases hhead
        | cons b s =>
          obtain rfl := Option.some.inj hhead
          obtain ⟨v, rfl⟩ := Nat.exists_eq_add_of_le' (Nat.le_of_succ_le h2)
          exact mem_cons_self
      exact hne 92 92 (hbytes 92 hmem) (by decide) rfl

theorem escapeRune_invalid (b : Str) :
    Passes (escapeRune (false, b)) ∧ StandsFor (escapeRune (false, b)) runeError :=
  ⟨passes_hex rfl rfl rfl rfl, standsFor_hex (by decide)⟩

theorem escaped_of_encodingLength (h : encodingLength s = some w) :
    escaped s = escapeRune (true, s.take w) ++ escaped (s.drop w) := by
  rw [escaped, runes_of_encodingLength h]
  rfl

theorem escaped_of_encodingLength_none (h : encodingLength (b :: s) = none) :
    escaped (b :: s) = escapeRune (false, [b]) ++ escaped s := by
  rw [escaped, runes_of_encodingLength_none h]
  rfl

theorem escapeRune_valid (h : encodingLength s = some w) :
    Passes (escapeRune (true, s.take w)) ∧ StandsFor (escapeRune (true, s.take w)) (s.take w) := by
  rcases encodingLength_bytes h with ⟨b, t, rfl, rfl, hb⟩ | ⟨h2, hbytes⟩
  · exact escapeRune_ascii hb
  · exact escapeRune_bytes h h2 hbytes

theorem passes_escaped (s : Str) : Passes (escaped s) := by
  induction s using runes_induction with
  | hnil => exact passes_nil
  | hvalid s w h ih =>
    rw [escaped_of_encodingLength h]
    exact (escapeRune_valid h).1.append ih
  | hinvalid b s h ih =>
    rw [escaped_of_encodingLength_none h]
    exact (escapeRune_invalid [b]).1.append ih

theorem unquoteAux_append {u v t t' : Str} (hu : StandsFor u v) (hne : u ≠ [])
    (ht : ∀ n, t.length ≤ n → unquoteAux n t = t') (hn : (u ++ t).length ≤ n) :
    unquoteAux n (u ++ t) = v ++ t' := by
  have hpos : 0 < u.length := length_pos_iff.2 hne
  rw [length_append] at hn
  obtain ⟨m, rfl⟩ : ∃ m, n = m + 1 := ⟨n - 1, by omega⟩
  rw [hu, ht m (by omega)]

theorem escapeRune_ne_nil {r : Bool × Str} (hr : r.2 ≠ []) : escapeRune r ≠ [] := by
  obtain ⟨valid, bytes⟩ := r
  unfold escapeRune
  split
  · decide
  · split_ifs <;> simp [str]
  · rename_i heq
    obtain ⟨-, rfl⟩ := Prod.mk.inj heq
    split_ifs
    · decide
    · decide
    · exact hr

/-- **A string is read back**, with U+FFFD in place of what is not UTF-8. -/
theorem unquoteAux_escaped (s : Str) : ∀ n, (escaped s).length ≤ n → unquoteAux n (escaped s) = coerceUtf8 s := by
  induction s using runes_induction with
  | hnil =>
    intro n _
    cases n <;> rfl
  | hvalid s w h ih =>
    obtain ⟨hpos, hle, -⟩ := encodingLength_eq_some h
    have hne : s.take w ≠ [] := length_pos_iff.1 (by rw [length_take_of_le hle]; exact hpos)
    rw [escaped_of_encodingLength h, coerceUtf8_of_encodingLength h]
    exact fun n hn => unquoteAux_append (escapeRune_valid h).2 (escapeRune_ne_nil hne) ih hn
  | hinvalid b s h ih =>
    rw [escaped_of_encodingLength_none h, coerceUtf8_of_encodingLength_none h]
    exact fun n hn => unquoteAux_append (escapeRune_invalid [b]).2 (escapeRune_ne_nil (cons_ne_nil _ _)) ih hn

theorem parseString_escaped (s rest : Str) :
    parseString (escaped s ++ 34 :: rest) = some (coerceUtf8 s, rest) := by
  rw [parseString, passes_escaped, scanString, if_pos ⟨rfl, rfl⟩]
  simp only [Option.map_some, append_nil, unquote, unquoteAux_escaped s _ le_rfl]

/-! ### Numbers -/

/-- A number before this text ends there. -/
def Stops (rest : Str) : Prop := ∀ b s, rest = b :: s → isNumberByte b = false

theorem stops_cons (hb : isNumberByte b = false) (s : Str) : Stops (b :: s) := by
  rintro c t ⟨⟩
  exact hb

theorem isNumber_cons {token : Str} (h : isNumber token = true) :
    ∃ b s, token = b :: s ∧ (b = 45 ∨ isDigit b = true) := by
  obtain ⟨-, hmagnitude⟩ := Bool.and_eq_true_iff.1 h
  cases token with
  | nil => cases hmagnitude
  | cons b s =>
    refine ⟨b, s, rfl, or_iff_not_imp_left.2 fun hb => ?_⟩
    have hdigits : isMagnitude (b :: s) = true := by
      split at hmagnitude
      · exact absurd (List.cons.inj ‹_›).1 hb
      · exact hmagnitude
    by_contra hdigit
    rw [isMagnitude, takeWhile_cons_of_neg hdigit] at hdigits
    cases hdigits

theorem takeWhile_number {token rest : Str} (h : isNumber token = true) (hrest : Stops rest) :
    (token ++ rest).takeWhile isNumberByte = token ∧ (token ++ rest).dropWhile isNumberByte = rest := by
  obtain ⟨hall, -⟩ := Bool.and_eq_true_iff.1 h
  have hbytes : ∀ b ∈ token, isNumberByte b = true := all_eq_true.1 hall
  rw [takeWhile_append_of_pos hbytes, dropWhile_append_of_pos hbytes]
  cases rest with
  | nil => exact ⟨append_nil _, rfl⟩
  | cons b s =>
    have hb := hrest b s rfl
    rw [takeWhile_cons_of_neg (by simp [hb]), dropWhile_cons_of_neg (by simp [hb])]
    exact ⟨append_nil _, rfl⟩

theorem parseNumber_append {token rest : Str} (h : isNumber token = true) (hrest : Stops rest) :
    parseNumber (token ++ rest) = some (num token, rest) := by
  obtain ⟨htake, hdrop⟩ := takeWhile_number h hrest
  rw [parseNumber, htake, hdrop, if_pos h]

/-! ### Values -/

def WellFormed : Json → Prop
  | num token => isNumber token = true
  | arr elems => wellFormedElems elems
  | obj members => wellFormedMembers members
  | _ => True
where
  wellFormedElems : List Json → Prop
    | [] => True
    | j :: js => j.WellFormed ∧ wellFormedElems js
  wellFormedMembers : List (Str × Json) → Prop
    | [] => True
    | (_, j) :: ms => j.WellFormed ∧ wellFormedMembers ms

/-- A byte with which a value may begin. -/
def Begins (b : UInt8) : Prop := b ∉ [32, 9, 10, 13, 93, 125, 44, 58]

instance decidableBegins (b : UInt8) : Decidable (Begins b) :=
  inferInstanceAs (Decidable (b ∉ [32, 9, 10, 13, 93, 125, 44, 58]))

theorem render_cons {j : Json} (hj : j.WellFormed) : ∃ b s, j.render = b :: s ∧ Begins b := by
  cases j with
  | null => exact ⟨110, _, rfl, by decide⟩
  | bool b =>
    cases b with
    | true => exact ⟨116, _, rfl, by decide⟩
    | false => exact ⟨102, _, rfl, by decide⟩
  | num token =>
    obtain ⟨b, s, rfl, hb⟩ := isNumber_cons hj
    refine ⟨b, s, rfl, fun hmem => ?_⟩
    simp only [mem_cons, not_mem_nil, or_false] at hmem
    rcases hmem with rfl | rfl | rfl | rfl | rfl | rfl | rfl | rfl <;> revert hb <;> decide
  | text s => exact ⟨34, _, rfl, by decide⟩
  | arr elems => exact ⟨91, _, rfl, by decide⟩
  | obj members => exact ⟨123, _, rfl, by decide⟩

theorem skipSpace_of_begins (hb : Begins b) (s : Str) : skipSpace (b :: s) = b :: s := by
  rw [skipSpace, dropWhile_cons_of_neg]
  intro hspace
  simp only [Bool.or_eq_true, decide_eq_true_eq] at hspace
  rcases hspace with ((rfl | rfl) | rfl) | rfl <;> exact hb (by decide)

theorem nextByte_of_begins (hb : Begins b) (s : Str) : nextByte (b :: s) = some (b, s) := by
  rw [nextByte, skipSpace_of_begins hb]
  rfl

theorem expect_of_begins {c : UInt8} (hb : Begins b) (hc : b ≠ c) (s : Str) : expect c (b :: s) = none := by
  rw [expect, nextByte_of_begins hb, Option.bind_some, if_neg hc]

theorem parseValue_scalar {fuel nesting : ℕ} (hb : Begins b) (harr : b ≠ 91) (hobj : b ≠ 123) :
    parseValue (fuel + 1) nesting (b :: s) = parseScalar b s := by
  rw [parseValue, nextByte_of_begins hb, Option.bind_some, if_neg harr, if_neg hobj]

theorem parseValue_arr {fuel nesting : ℕ} (hs : expect 93 s = none) :
    parseValue (fuel + 1) (nesting + 1) (91 :: s) =
      (parseElems fuel nesting s).map fun r => (arr r.1, r.2) := by
  rw [parseValue, nextByte_of_begins (by decide), Option.bind_some, if_pos rfl,
    if_neg (Nat.succ_ne_zero _), parseNested, hs, Nat.add_sub_cancel]

theorem parseValue_obj {fuel nesting : ℕ} (hs : expect 125 s = none) :
    parseValue (fuel + 1) (nesting + 1) (123 :: s) =
      (parseMembers fuel nesting s).map fun r => (obj r.1, r.2) := by
  have hne : (123 : UInt8) ≠ 91 := by decide
  rw [parseValue, nextByte_of_begins (by decide), Option.bind_some, if_neg hne, if_pos rfl,
    if_neg (Nat.succ_ne_zero _), parseNested, hs, Nat.add_sub_cancel]

section Tails

variable {α : Type} {more : Str → Option (List α × Str)} (x : α) (s : Str)

theorem parseTail_more {close : UInt8} (hclose : expect close (44 :: s) = none) :
    parseTail close more x (44 :: s) = (more s).map fun r => (x :: r.1, r.2) := by
  rw [parseTail, hclose]
  rfl

end Tails

theorem parseMembers_key {fuel nesting : ℕ} (k s : Str) :
    parseMembers (fuel + 1) nesting (quote k ++ 58 :: s) = (parseValue fuel nesting s).bind fun r =>
        parseTail 125 (parseMembers fuel nesting) (coerceUtf8 k, r.1) r.2 := by
  have hquote : expect 34 (quote k ++ 58 :: s) = some (escaped k ++ 34 :: 58 :: s) := by
    rw [quote, cons_append, append_assoc]
    rfl
  have hcolon : expect 58 (58 :: s) = some s := rfl
  rw [parseMembers, hquote, Option.bind_some, parseString_escaped, Option.bind_some]
  dsimp only
  rw [hcolon, Option.bind_some]

/-! ### The round trip -/

theorem exists_fuel {fuel : ℕ} (hpos : 0 < n) (h : 2 * n ≤ fuel) : ∃ m, fuel = m + 1 ∧ 2 * n ≤ m + 1 :=
  ⟨fuel - 1, by omega, by omega⟩

theorem renderElems_cons (j : Json) (js : List Json) :
    render.renderElems (j :: js) = j.render ++ (if js.isEmpty then [93] else 44 :: render.renderElems js) := by
  cases js <;> rfl

theorem renderMembers_cons (k : Str) (j : Json) (ms : List (Str × Json)) :
    render.renderMembers ((k, j) :: ms) =
      quote k ++ 58 :: (j.render ++ (if ms.isEmpty then [125] else 44 :: render.renderMembers ms)) := by
  cases ms <;> rfl

mutual

theorem parseValue_render : ∀ (j : Json) {fuel nesting : ℕ} {rest : Str}, j.WellFormed →
    j.depth ≤ nesting → 2 * j.render.length ≤ fuel → Stops rest →
    parseValue fuel nesting (j.render ++ rest) = some (j.coerce, rest)
  | null, fuel, nesting, rest, _, _, hfuel, _ => by
    obtain ⟨m, rfl, -⟩ := exists_fuel (by decide) hfuel
    exact (parseValue_scalar (b := 110) (by decide) (by decide) (by decide)).trans rfl
  | bool b, fuel, nesting, rest, _, _, hfuel, _ => by
    cases b with
    | true =>
      obtain ⟨m, rfl, -⟩ := exists_fuel (by decide) hfuel
      exact (parseValue_scalar (b := 116) (by decide) (by decide) (by decide)).trans rfl
    | false =>
      obtain ⟨m, rfl, -⟩ := exists_fuel (by decide) hfuel
      exact (parseValue_scalar (b := 102) (by decide) (by decide) (by decide)).trans rfl
  | num token, fuel, nesting, rest, hj, _, hfuel, hrest => by
    obtain ⟨b, s, rfl, hb⟩ := isNumber_cons hj
    obtain ⟨c, t, heq, hbegins⟩ := render_cons (j := num (b :: s)) hj
    obtain ⟨rfl, rfl⟩ := List.cons.inj heq
    obtain ⟨m, rfl, -⟩ := exists_fuel (Nat.succ_pos _) hfuel
    have hne : ∀ c, ¬ (c = 45 ∨ isDigit c = true) → b ≠ c := by
      rintro c hc rfl
      exact hc hb
    rw [render, cons_append, parseValue_scalar hbegins (hne 91 (by decide)) (hne 123 (by decide)),
      parseScalar, if_neg (hne 34 (by decide)), if_pos hb, ← cons_append]
    exact parseNumber_append hj hrest
  | text s, fuel, nesting, rest, _, _, hfuel, _ => by
    obtain ⟨m, rfl, -⟩ := exists_fuel (Nat.succ_pos _) hfuel
    rw [render, quote, cons_append, parseValue_scalar (by decide) (by decide) (by decide),
      parseScalar, if_pos rfl, append_assoc, singleton_append, parseString_escaped]
    rfl
  | arr [], fuel, nesting, rest, _, hdepth, hfuel, _ => by
    obtain ⟨m, rfl, -⟩ := exists_fuel (Nat.succ_pos _) hfuel
    obtain ⟨n, rfl⟩ := Nat.exists_eq_add_of_le' hdepth
    rfl
  | arr (j :: js), fuel, nesting, rest, hj, hdepth, hfuel, hrest => by
    have hlen : (arr (j :: js)).render.length = (render.renderElems (j :: js)).length + 1 := rfl
    obtain ⟨m, rfl, hm⟩ := exists_fuel (Nat.succ_pos _) hfuel
    have hdepth' : depth.depthElems (j :: js) + 1 ≤ nesting := hdepth
    obtain ⟨n, rfl⟩ : ∃ n, nesting = n + 1 := ⟨nesting - 1, by omega⟩
    obtain ⟨b, s, hcons, hb⟩ := render_cons hj.1
    have hend : expect 93 (render.renderElems (j :: js) ++ rest) = none := by
      rw [renderElems_cons, hcons, cons_append, cons_append]
      refine expect_of_begins hb ?_ _
      rintro rfl
      exact absurd hb (by decide)
    change parseValue (m + 1) (n + 1) (91 :: (render.renderElems (j :: js) ++ rest)) = _
    rw [parseValue_arr hend, parseElems_render (j :: js) (cons_ne_nil _ _) hj (by omega) (by omega)]
    rfl
  | obj [], fuel, nesting, rest, _, hdepth, hfuel, _ => by
    obtain ⟨m, rfl, -⟩ := exists_fuel (Nat.succ_pos _) hfuel
    obtain ⟨n, rfl⟩ := Nat.exists_eq_add_of_le' hdepth
    rfl
  | obj ((k, j) :: ms), fuel, nesting, rest, hj, hdepth, hfuel, hrest => by
    have hlen : (obj ((k, j) :: ms)).render.length = (render.renderMembers ((k, j) :: ms)).length + 1 := rfl
    obtain ⟨m, rfl, hm⟩ := exists_fuel (Nat.succ_pos _) hfuel
    have hdepth' : depth.depthMembers ((k, j) :: ms) + 1 ≤ nesting := hdepth
    obtain ⟨n, rfl⟩ : ∃ n, nesting = n + 1 := ⟨nesting - 1, by omega⟩
    have hend : expect 125 (render.renderMembers ((k, j) :: ms) ++ rest) = none := by
      rw [renderMembers_cons, quote, cons_append, cons_append]
      exact expect_of_begins (by decide) (by decide) _
    change parseValue (m + 1) (n + 1) (123 :: (render.renderMembers ((k, j) :: ms) ++ rest)) = _
    rw [parseValue_obj hend, parseMembers_render ((k, j) :: ms) (cons_ne_nil _ _) hj (by omega) (by omega)]
    rfl

theorem parseElems_render : ∀ (js : List Json) {fuel nesting : ℕ} {rest : Str}, js ≠ [] →
    WellFormed.wellFormedElems js → depth.depthElems js ≤ nesting →
    2 * (render.renderElems js).length ≤ fuel →
    parseElems fuel nesting (render.renderElems js ++ rest) = some (coerce.coerceElems js, rest)
  | [], _, _, _, hne, _, _, _ => absurd rfl hne
  | [j], fuel, nesting, rest, _, hj, hdepth, hfuel => by
    have hlen : (render.renderElems [j]).length = j.render.length + 1 := length_append
    obtain ⟨m, rfl, hm⟩ := exists_fuel (by omega) hfuel
    have hvalue : parseValue m nesting (j.render ++ 93 :: rest) = some (j.coerce, 93 :: rest) :=
      parseValue_render j hj.1 ((le_max_left _ _).trans hdepth) (by omega) (stops_cons rfl rest)
    have happend : render.renderElems [j] ++ rest = j.render ++ 93 :: rest := append_assoc ..
    rw [happend, parseElems, hvalue]
    rfl
  | j :: j' :: js, fuel, nesting, rest, _, hj, hdepth, hfuel => by
    have hlen : (render.renderElems (j :: j' :: js)).length =
        j.render.length + ((render.renderElems (j' :: js)).length + 1) := length_append
    obtain ⟨m, rfl, hm⟩ := exists_fuel (by omega) hfuel
    have hvalue : parseValue m nesting (j.render ++ 44 :: (render.renderElems (j' :: js) ++ rest)) =
        some (j.coerce, 44 :: (render.renderElems (j' :: js) ++ rest)) :=
      parseValue_render j hj.1 ((le_max_left _ _).trans hdepth) (by omega) (stops_cons rfl _)
    have happend : render.renderElems (j :: j' :: js) ++ rest =
        j.render ++ 44 :: (render.renderElems (j' :: js) ++ rest) := append_assoc ..
    rw [happend, parseElems, hvalue, Option.bind_some, parseTail_more _ _ rfl,
      parseElems_render (j' :: js) (cons_ne_nil _ _) hj.2 ((le_max_right _ _).trans hdepth) (by omega)]
    rfl

theorem parseMembers_render : ∀ (ms : List (Str × Json)) {fuel nesting : ℕ} {rest : Str}, ms ≠ [] →
    WellFormed.wellFormedMembers ms → depth.depthMembers ms ≤ nesting →
    2 * (render.renderMembers ms).length ≤ fuel →
    parseMembers fuel nesting (render.renderMembers ms ++ rest) = some (coerce.coerceMembers ms, rest)
  | [], _, _, _, hne, _, _, _ => absurd rfl hne
  | [(k, j)], fuel, nesting, rest, _, hj, hdepth, hfuel => by
    have hlen : (render.renderMembers [(k, j)]).length = (quote k).length + (j.render.length + 1 + 1) := by
      rw [renderMembers_cons, length_append, length_cons, length_append]
      rfl
    obtain ⟨m, rfl, hm⟩ := exists_fuel (by omega) hfuel
    have hvalue : parseValue m nesting (j.render ++ 125 :: rest) = some (j.coerce, 125 :: rest) :=
      parseValue_render j hj.1 ((le_max_left _ _).trans hdepth) (by omega) (stops_cons rfl rest)
    have happend : render.renderMembers [(k, j)] ++ rest = quote k ++ 58 :: (j.render ++ 125 :: rest) := by
      rw [renderMembers_cons, append_assoc, cons_append, append_assoc]
      rfl
    rw [happend, parseMembers_key, hvalue]
    rfl
  | (k, j) :: (k', j') :: ms, fuel, nesting, rest, _, hj, hdepth, hfuel => by
    have hlen : (render.renderMembers ((k, j) :: (k', j') :: ms)).length =
        (quote k).length + (j.render.length + ((render.renderMembers ((k', j') :: ms)).length + 1) + 1) := by
      rw [renderMembers_cons, length_append, length_cons, length_append]
      rfl
    obtain ⟨m, rfl, hm⟩ := exists_fuel (by omega) hfuel
    have hvalue : parseValue m nesting (j.render ++ 44 :: (render.renderMembers ((k', j') :: ms) ++ rest)) =
        some (j.coerce, 44 :: (render.renderMembers ((k', j') :: ms) ++ rest)) :=
      parseValue_render j hj.1 ((le_max_left _ _).trans hdepth) (by omega) (stops_cons rfl _)
    have happend : render.renderMembers ((k, j) :: (k', j') :: ms) ++ rest =
        quote k ++ 58 :: (j.render ++ 44 :: (render.renderMembers ((k', j') :: ms) ++ rest)) := by
      rw [renderMembers_cons, append_assoc, cons_append, append_assoc]
      rfl
    rw [happend, parseMembers_key, hvalue, Option.bind_some, parseTail_more _ _ rfl,
      parseMembers_render ((k', j') :: ms) (cons_ne_nil _ _) hj.2 ((le_max_right _ _).trans hdepth)
        (by omega)]
    rfl

end

theorem parse_render {j : Json} (hj : j.WellFormed) (hdepth : j.depth ≤ maxNestingDepth) :
    parse j.render = some j.coerce := by
  have hstops : Stops [] := fun _ _ h => by cases h
  have hvalue := parseValue_render j hj hdepth le_rfl hstops
  rw [append_nil] at hvalue
  rw [parse, hvalue]
  rfl

/-! ### Bytes and tokens -/

def printable (s : Str) : Bool := s.all fun b => decide (32 ≤ b)

theorem printable_append {t : Str} (hs : printable s = true) (ht : printable t = true) :
    printable (s ++ t) = true := by
  rw [printable, all_append]
  exact Bool.and_eq_true_iff.2 ⟨hs, ht⟩

theorem printable_cons (hb : 32 ≤ b) (hs : printable s = true) : printable (b :: s) = true :=
  Bool.and_eq_true_iff.2 ⟨decide_eq_true hb, hs⟩

theorem printable_of_forall (h : ∀ b ∈ s, 32 ≤ b) : printable s = true :=
  all_eq_true.2 fun b hb => decide_eq_true (h b hb)

theorem printable_escapeRune (hw : encodingLength s = some w) :
    printable (escapeRune (true, s.take w)) = true := by
  have hhex : ∀ n < 16, 32 ≤ hexDigit n := by decide
  rcases encodingLength_bytes hw with ⟨c, t, rfl, rfl, hc⟩ | ⟨h2, hbytes⟩
  · rw [take_succ_cons, take_zero, escapeRune]
    have hlt : c.toNat < 128 := UInt8.lt_iff_toNat_lt.1 hc
    split_ifs with hslash h8 h12 h10 h13 h9 hctl
    · rcases hslash with rfl | rfl <;> decide
    · decide
    · decide
    · decide
    · decide
    · decide
    · exact printable_append (by decide)
        (printable_cons (hhex _ (by omega)) (printable_cons (hhex _ (by omega)) rfl))
    · exact printable_cons (UInt8.not_lt.1 fun hlt => hctl (Or.inl hlt)) rfl
  · obtain ⟨-, hle, -⟩ := encodingLength_eq_some hw
    have hlen : (s.take w).length = w := length_take_of_le hle
    rw [escapeRune]
    · split_ifs
      · decide
      · decide
      · exact printable_of_forall fun b hb => UInt8.le_trans (by decide) (hbytes b hb)
    · intro b hb
      rw [hb, length_singleton] at hlen
      omega

theorem printable_escaped (s : Str) : printable (escaped s) = true := by
  induction s using runes_induction with
  | hnil => rfl
  | hvalid s w h ih =>
    rw [escaped_of_encodingLength h]
    exact printable_append (printable_escapeRune h) ih
  | hinvalid b s h ih =>
    rw [escaped_of_encodingLength_none h]
    exact printable_append (s := escapeRune (false, [b])) rfl ih

theorem printable_quote (s : Str) : printable (quote s) = true :=
  printable_cons (by decide) (printable_append (printable_escaped s) (by decide))

theorem printable_number {token : Str} (h : isNumber token = true) : printable token = true := by
  refine printable_of_forall fun b hb => ?_
  have hbyte := all_eq_true.1 (Bool.and_eq_true_iff.1 h).1 b hb
  rcases Bool.or_eq_true_iff.1 hbyte with hdigit | hother
  · exact UInt8.le_trans (b := 48) (by decide) (of_decide_eq_true hdigit).1
  · have hmem := of_decide_eq_true hother
    simp only [mem_cons, not_mem_nil, or_false] at hmem
    rcases hmem with rfl | rfl | rfl | rfl | rfl <;> decide

mutual

theorem printable_render : ∀ j : Json, j.WellFormed → printable j.render = true
  | null, _ => rfl
  | bool true, _ => rfl
  | bool false, _ => rfl
  | num _, hj => printable_number hj
  | text s, _ => printable_quote s
  | arr js, hj => printable_cons (by decide) (printable_renderElems js hj)
  | obj ms, hj => printable_cons (by decide) (printable_renderMembers ms hj)

theorem printable_renderElems : ∀ js : List Json, WellFormed.wellFormedElems js →
    printable (render.renderElems js) = true
  | [], _ => rfl
  | [j], hj => printable_append (printable_render j hj.1) rfl
  | j :: j' :: js, hj => printable_append (printable_render j hj.1)
      (printable_cons (by decide) (printable_renderElems (j' :: js) hj.2))

theorem printable_renderMembers : ∀ ms : List (Str × Json), WellFormed.wellFormedMembers ms →
    printable (render.renderMembers ms) = true
  | [], _ => rfl
  | [(k, j)], hj => printable_append (printable_quote k)
      (printable_cons (by decide) (printable_append (printable_render j hj.1) rfl))
  | (k, j) :: (k', j') :: ms, hj => printable_append (printable_quote k)
      (printable_cons (by decide) (printable_append (printable_render j hj.1)
        (printable_cons (by decide) (printable_renderMembers ((k', j') :: ms) hj.2))))

end

theorem head_decimal (hn : n ≠ 0) : (decimal n).head? ≠ some 48 := by
  induction n using Nat.strong_induction_on with
  | _ n ih =>
    rw [decimal_eq]
    split_ifs with hlt
    · interval_cases n <;> first | exact absurd rfl hn | decide
    · have hrec := ih (n / 10) (by omega) (by omega)
      cases hd : decimal (n / 10) with
      | nil => exact absurd hd (decimal_ne_nil _)
      | cons b s =>
        rw [hd] at hrec
        exact hrec

theorem isMagnitude_decimal (n : ℕ) : isMagnitude (decimal n) = true := by
  have htake : (decimal n).takeWhile isDigit = decimal n :=
    takeWhile_eq_self_iff.2 isDigit_of_mem_decimal
  have hdrop : (decimal n).dropWhile isDigit = [] :=
    dropWhile_eq_nil_iff.2 isDigit_of_mem_decimal
  rw [isMagnitude, htake, hdrop]
  by_cases hn : n = 0
  · subst hn
    decide
  · simp [head_decimal hn, decimal_ne_nil, isFraction, isExponent]

theorem isNumber_decimal (n : ℕ) : isNumber (decimal n) = true := by
  have hall : (decimal n).all isNumberByte = true :=
    all_eq_true.2 fun b hb => Bool.or_eq_true_iff.2 (Or.inl (isDigit_of_mem_decimal b hb))
  rw [isNumber, hall, Bool.true_and]
  · exact isMagnitude_decimal n
  · intro t ht
    have hminus : isDigit 45 = true := isDigit_of_mem_decimal 45 (ht ▸ mem_cons_self)
    cases hminus

theorem isNumber_decimalInt (n : ℤ) : isNumber (decimalInt n) = true := by
  rw [decimalInt]
  split_ifs
  · have hall : (45 :: decimal n.natAbs).all isNumberByte = true :=
      all_eq_true.2 fun b hb => by
        rcases mem_cons.1 hb with rfl | hb
        · rfl
        · exact Bool.or_eq_true_iff.2 (Or.inl (isDigit_of_mem_decimal b hb))
    change isNumber (45 :: decimal n.natAbs) = true
    rw [isNumber, hall, Bool.true_and]
    exact isMagnitude_decimal n.natAbs
  · exact isNumber_decimal n.natAbs

end Wavicle.Lib.Json
