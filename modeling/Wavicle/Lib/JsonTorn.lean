import Wavicle.Lib.JsonTexts

/-! # Torn JSON texts

A text that was cut off, alone or with another object right behind it, is no JSON: a string that was cut off
ends with the first quote of what follows, and elsewhere the brackets around the cut are never closed. -/

namespace Wavicle.Lib.Json

/-! ### More fuel and more room for nesting change nothing -/

variable {s : Str} {close : UInt8} {α : Type} {j : Json} {b : UInt8} {ms : List (Str × Json)}

theorem parseTail_mono {more more' : Str → Option (List α × Str)} {x : α} {r : List α × Str}
    (hmore : ∀ s r, more s = some r → more' s = some r) (h : parseTail close more x s = some r) :
    parseTail close more' x s = some r := by
  unfold parseTail at h ⊢
  cases hclose : expect close s with
  | some t =>
    rw [hclose] at h
    exact h
  | none =>
    rw [hclose] at h
    obtain ⟨t, ht, hmap⟩ := Option.bind_eq_some_iff.1 h
    obtain ⟨r', hr', heq⟩ := Option.map_eq_some_iff.1 hmap
    dsimp only
    rw [ht, Option.bind_some, hmore t r' hr', Option.map_some, heq]

theorem parseNested_mono {make : List α → Json} {inner inner' : Str → Option (List α × Str)}
    {r : Json × Str} (hinner : ∀ s r, inner s = some r → inner' s = some r)
    (h : parseNested close make inner s = some r) : parseNested close make inner' s = some r := by
  unfold parseNested at h ⊢
  cases hclose : expect close s with
  | some t =>
    rw [hclose] at h
    exact h
  | none =>
    rw [hclose] at h
    obtain ⟨r', hr', heq⟩ := Option.map_eq_some_iff.1 h
    exact Option.map_eq_some_iff.2 ⟨r', hinner s r' hr', heq⟩

theorem parse_mono (fuel : ℕ) :
    (∀ nesting s r, parseValue fuel nesting s = some r → ∀ fuel' nesting', fuel ≤ fuel' →
      nesting ≤ nesting' → parseValue fuel' nesting' s = some r) ∧
    (∀ nesting s r, parseElems fuel nesting s = some r → ∀ fuel' nesting', fuel ≤ fuel' →
      nesting ≤ nesting' → parseElems fuel' nesting' s = some r) ∧
    (∀ nesting s r, parseMembers fuel nesting s = some r → ∀ fuel' nesting', fuel ≤ fuel' →
      nesting ≤ nesting' → parseMembers fuel' nesting' s = some r) := by
  induction fuel with
  | zero => exact ⟨fun _ _ _ h => (by cases h), fun _ _ _ h => (by cases h), fun _ _ _ h => by cases h⟩
  | succ fuel ih =>
    obtain ⟨ihvalue, ihelems, ihmembers⟩ := ih
    refine ⟨?_, ?_, ?_⟩ <;> intro nesting s r h fuel' nesting' hfuel hnesting <;>
      obtain ⟨m, rfl⟩ : ∃ m, fuel' = m + 1 := ⟨fuel' - 1, by omega⟩ <;> have hm : fuel ≤ m := by omega
    · rw [parseValue] at h ⊢
      obtain ⟨p, hp, hbody⟩ := Option.bind_eq_some_iff.1 h
      rw [hp, Option.bind_some]
      by_cases h91 : p.1 = 91
      · rw [if_pos h91] at hbody ⊢
        by_cases hzero : nesting = 0
        · rw [if_pos hzero] at hbody
          cases hbody
        · rw [if_neg hzero] at hbody
          rw [if_neg (by omega)]
          exact parseNested_mono (fun s' r' hr' => ihelems _ s' r' hr' m _ hm (Nat.sub_le_sub_right hnesting 1)) hbody
      · rw [if_neg h91] at hbody ⊢
        by_cases h123 : p.1 = 123
        · rw [if_pos h123] at hbody ⊢
          by_cases hzero : nesting = 0
          · rw [if_pos hzero] at hbody
            cases hbody
          · rw [if_neg hzero] at hbody
            rw [if_neg (by omega)]
            exact parseNested_mono (fun s' r' hr' => ihmembers _ s' r' hr' m _ hm
              (Nat.sub_le_sub_right hnesting 1)) hbody
        · rw [if_neg h123] at hbody ⊢
          exact hbody
    · rw [parseElems] at h ⊢
      obtain ⟨v, hv, hbody⟩ := Option.bind_eq_some_iff.1 h
      rw [ihvalue _ _ v hv m _ hm hnesting, Option.bind_some]
      exact parseTail_mono (fun s' r' hr' => ihelems _ s' r' hr' m _ hm hnesting) hbody
    · rw [parseMembers] at h ⊢
      obtain ⟨s₁, h₁, h⟩ := Option.bind_eq_some_iff.1 h
      obtain ⟨key, hkey, h⟩ := Option.bind_eq_some_iff.1 h
      obtain ⟨s₂, h₂, h⟩ := Option.bind_eq_some_iff.1 h
      obtain ⟨v, hv, hbody⟩ := Option.bind_eq_some_iff.1 h
      rw [h₁, Option.bind_some, hkey, Option.bind_some, h₂, Option.bind_some,
        ihvalue _ _ v hv m _ hm hnesting, Option.bind_some]
      exact parseTail_mono (fun s' r' hr' => ihmembers _ s' r' hr' m _ hm hnesting) hbody

theorem parseValue_render_eq (hj : j.WellFormed) {fuel nesting : ℕ} {rest : Str}
    (hrest : Stops rest) {r : Json × Str} (h : parseValue fuel nesting (j.render ++ rest) = some r) :
    r = (j.coerce, rest) := by
  have hmore := (parse_mono fuel).1 _ _ r h (fuel + 2 * j.render.length) (nesting + j.depth)
    (Nat.le_add_right _ _) (Nat.le_add_right _ _)
  rw [parseValue_render j hj (Nat.le_add_left _ _) (Nat.le_add_left _ _) hrest] at hmore
  exact (Option.some.inj hmore).symm

/-! ### Brackets -/

/-- What is known after a part of a text: the open brackets, the string that it ends in, and whether a string,
an array or an object has just ended. -/
structure Scan where
  depth : ℕ
  inside : Option StrState
  ended : Bool

/-- The next byte. After a string, an array or an object come spaces, commas, colons and closing brackets. -/
def Scan.next : Scan → UInt8 → Option Scan
  | ⟨d, some st, e⟩, b =>
    if st = .plain ∧ b = 34 then some ⟨d, none, true⟩
    else (st.next b).map fun st' => ⟨d, some st', e⟩
  | ⟨d, none, e⟩, b =>
    if b = 32 ∨ b = 9 ∨ b = 10 ∨ b = 13 then some ⟨d, none, e⟩
    else if b = 93 ∨ b = 125 then if d = 0 then none else some ⟨d - 1, none, true⟩
    else if b = 44 ∨ b = 58 then some ⟨d, none, false⟩
    else if e then none
    else if b = 34 then some ⟨d, some .plain, false⟩
    else if b = 91 ∨ b = 123 then some ⟨d + 1, none, false⟩
    else some ⟨d, none, false⟩

def Scan.run : Scan → Str → Option Scan
  | x, [] => some x
  | x, b :: s => (x.next b).bind fun y => y.run s

theorem Scan.run_append (s t : Str) : ∀ x : Scan, x.run (s ++ t) = (x.run s).bind fun y => y.run t := by
  induction s with
  | nil => exact fun x => rfl
  | cons b s ih =>
    intro x
    rw [List.cons_append, Scan.run, Scan.run, Option.bind_assoc]
    exact congrArg _ (funext ih)

theorem Scan.next_shift (n : ℕ) {x y : Scan} (h : x.next b = some y) :
    Scan.next { x with depth := x.depth + n } b = some { y with depth := y.depth + n } := by
  obtain ⟨d, inside, e⟩ := x
  cases inside with
  | some st =>
    rw [Scan.next] at h ⊢
    split_ifs at h ⊢
    · obtain rfl := Option.some.inj h
      rfl
    · obtain ⟨st', hst, rfl⟩ := Option.map_eq_some_iff.1 h
      exact Option.map_eq_some_iff.2 ⟨st', hst, rfl⟩
  | none =>
    rw [Scan.next] at h ⊢
    dsimp only
    split_ifs at h ⊢
    all_goals first | (exfalso; omega) | obtain rfl := Option.some.inj h
    all_goals first | rfl | (dsimp only; congr 2; omega)

theorem Scan.run_shift (n : ℕ) (s : Str) : ∀ {x y : Scan}, x.run s = some y →
    Scan.run { x with depth := x.depth + n } s = some { y with depth := y.depth + n } := by
  induction s with
  | nil =>
    intro x y h
    obtain rfl := Option.some.inj h
    rfl
  | cons b s ih =>
    intro x y h
    obtain ⟨z, hz, hy⟩ := Option.bind_eq_some_iff.1 h
    rw [Scan.run, Scan.next_shift n hz]
    exact ih hy

/-- From `s` to `r` all brackets and strings are closed that are opened, and no others. -/
def Closed (e e' : Bool) (s r : Str) : Prop :=
  ∃ c, s = c ++ r ∧ Scan.run ⟨0, none, e⟩ c = some ⟨0, none, e'⟩

theorem Closed.trans {e e' e'' : Bool} {t r : Str} (h : Closed e e' s t) (h' : Closed e' e'' t r) :
    Closed e e'' s r := by
  obtain ⟨c, rfl, hc⟩ := h
  obtain ⟨c', rfl, hc'⟩ := h'
  refine ⟨c ++ c', (List.append_assoc ..).symm, ?_⟩
  rw [Scan.run_append, hc]
  exact hc'

theorem closed_cons {e e' : Bool} (h : Scan.next ⟨0, none, e⟩ b = some ⟨0, none, e'⟩) (s : Str) :
    Closed e e' (b :: s) s := by
  refine ⟨[b], rfl, ?_⟩
  rw [Scan.run, h]
  rfl

theorem closed_skipSpace (e : Bool) (s : Str) : Closed e e s (skipSpace s) := by
  induction s with
  | nil => exact ⟨[], rfl, rfl⟩
  | cons b s ih =>
    unfold skipSpace at ih ⊢
    by_cases hb : (b = 32 || b = 9 || b = 10 || b = 13) = true
    · rw [List.dropWhile_cons_of_pos (by exact hb)]
      refine (closed_cons ?_ s).trans ih
      rw [Scan.next, if_pos (by simpa [or_assoc] using hb)]
    · rw [List.dropWhile_cons_of_neg (by exact hb)]
      exact ⟨[], rfl, rfl⟩

theorem closed_nextByte (e : Bool) {p : UInt8 × Str} (h : nextByte s = some p) :
    Closed e e s (p.1 :: p.2) := by
  obtain ⟨b, hb, rfl⟩ := Option.map_eq_some_iff.1 h
  have hs := closed_skipSpace e s
  rwa [List.eq_cons_of_mem_head? hb] at hs

theorem closed_expect (e : Bool) {t : Str} (h : expect b s = some t) : Closed e e s (b :: t) := by
  obtain ⟨p, hp, hif⟩ := Option.bind_eq_some_iff.1 h
  split_ifs at hif with hb
  rw [← hb, ← Option.some.inj hif]
  exact closed_nextByte e hp

theorem Closed.bracket {e : Bool} {r : Str} {left right : UInt8} (h : Closed false e s (right :: r))
    (hleft : left = 91 ∨ left = 123) (hright : right = 93 ∨ right = 125) :
    Closed false true (left :: s) r := by
  obtain ⟨c, rfl, hc⟩ := h
  refine ⟨left :: c ++ [right], by simp, ?_⟩
  have hopen : Scan.next ⟨0, none, false⟩ left = some ⟨1, none, false⟩ := by
    rcases hleft with rfl | rfl <;> rfl
  have hclose : Scan.next ⟨1, none, e⟩ right = some ⟨0, none, true⟩ := by
    rcases hright with rfl | rfl <;> rfl
  rw [List.cons_append, Scan.run, hopen, Option.bind_some, Scan.run_append, Scan.run_shift 1 c hc,
    Option.bind_some, Scan.run, hclose]
  rfl

/-! ### What the parser takes off -/

theorem run_scanString {raw r : Str} : ∀ {s : Str} {st : StrState}, scanString st s = some (raw, r) →
    ∃ c, s = c ++ r ∧ Scan.run ⟨0, some st, false⟩ c = some ⟨0, none, true⟩ := by
  intro s
  induction s generalizing raw with
  | nil => exact fun h => by cases h
  | cons b s ih =>
    intro st h
    rw [scanString] at h
    split_ifs at h with hend
    · obtain ⟨-, rfl⟩ := Prod.mk.inj (Option.some.inj h)
      exact ⟨[b], rfl, by rw [Scan.run, Scan.next, if_pos hend]; rfl⟩
    · obtain ⟨st', hst, hmap⟩ := Option.bind_eq_some_iff.1 h
      obtain ⟨p, hp, heq⟩ := Option.map_eq_some_iff.1 hmap
      obtain ⟨-, rfl⟩ := Prod.mk.inj heq
      obtain ⟨c, rfl, hc⟩ := ih hp
      refine ⟨b :: c, rfl, ?_⟩
      rw [Scan.run, Scan.next, if_neg hend, hst]
      exact hc

theorem closed_string {p : Str × Str} (h : parseString s = some p) : Closed false true (34 :: s) p.2 := by
  obtain ⟨q, hq, rfl⟩ := Option.map_eq_some_iff.1 h
  obtain ⟨c, rfl, hc⟩ := run_scanString hq
  exact ⟨34 :: c, rfl, hc⟩

theorem closed_number (s : Str) : Closed false false s (s.dropWhile isNumberByte) := by
  induction s with
  | nil => exact ⟨[], rfl, rfl⟩
  | cons b s ih =>
    by_cases hb : isNumberByte b = true
    · rw [List.dropWhile_cons_of_pos hb]
      refine (closed_cons ?_ s).trans ih
      have hother : ∀ c : UInt8, isNumberByte c = false → b ≠ c := by
        rintro c hc rfl
        exact absurd (hb.symm.trans hc) (by decide)
      simp [Scan.next, hother 32 rfl, hother 9 rfl, hother 10 rfl, hother 13 rfl, hother 93 rfl,
        hother 125 rfl, hother 44 rfl, hother 58 rfl, hother 34 rfl, hother 91 rfl, hother 123 rfl]
    · rw [List.dropWhile_cons_of_neg hb]
      exact ⟨[], rfl, rfl⟩

theorem closed_literal {r : Str} (h : parseLiteral s = some (j, r)) : Closed false false s r := by
  unfold parseLiteral at h
  split_ifs at h with hnull htrue hfalse
  · obtain ⟨-, rfl⟩ := Prod.mk.inj (Option.some.inj h)
    exact ⟨_, (List.prefix_iff_eq_append.1 hnull).symm, rfl⟩
  · obtain ⟨-, rfl⟩ := Prod.mk.inj (Option.some.inj h)
    exact ⟨_, (List.prefix_iff_eq_append.1 htrue).symm, rfl⟩
  · obtain ⟨-, rfl⟩ := Prod.mk.inj (Option.some.inj h)
    exact ⟨_, (List.prefix_iff_eq_append.1 hfalse).symm, rfl⟩

theorem closed_scalar {r : Str} (h : parseScalar b s = some (j, r)) : ∃ e, Closed false e (b :: s) r := by
  unfold parseScalar at h
  split_ifs at h with hquote hnumber
  · obtain ⟨p, hp, heq⟩ := Option.map_eq_some_iff.1 h
    obtain ⟨-, rfl⟩ := Prod.mk.inj heq
    rw [hquote]
    exact ⟨true, closed_string hp⟩
  · unfold parseNumber at h
    split_ifs at h
    obtain ⟨-, rfl⟩ := Prod.mk.inj (Option.some.inj h)
    exact ⟨false, closed_number _⟩
  · exact ⟨false, closed_literal h⟩

theorem closed_tail {more : Str → Option (List α × Str)} {x : α} {r : Str} {l : List α}
    (hmore : ∀ t l r, more t = some (l, r) → ∃ e, Closed false e t (close :: r)) (e : Bool)
    (h : parseTail close more x s = some (l, r)) : ∃ e', Closed e e' s (close :: r) := by
  unfold parseTail at h
  split at h
  · rename_i hclose
    obtain ⟨-, rfl⟩ := Prod.mk.inj (Option.some.inj h)
    exact ⟨e, closed_expect e hclose⟩
  · obtain ⟨t, ht, hmap⟩ := Option.bind_eq_some_iff.1 h
    obtain ⟨p, hp, heq⟩ := Option.map_eq_some_iff.1 hmap
    obtain ⟨-, rfl⟩ := Prod.mk.inj heq
    obtain ⟨e', he'⟩ := hmore t _ _ hp
    exact ⟨e', ((closed_expect e ht).trans (closed_cons rfl t)).trans he'⟩

theorem closed_nested {make : List α → Json} {inner : Str → Option (List α × Str)} {r : Str}
    (hinner : ∀ l r, inner s = some (l, r) → ∃ e, Closed false e s (close :: r))
    (h : parseNested close make inner s = some (j, r)) : ∃ e, Closed false e s (close :: r) := by
  unfold parseNested at h
  split at h
  · rename_i hclose
    obtain ⟨-, rfl⟩ := Prod.mk.inj (Option.some.inj h)
    exact ⟨false, closed_expect false hclose⟩
  · obtain ⟨p, hp, heq⟩ := Option.map_eq_some_iff.1 h
    obtain ⟨-, rfl⟩ := Prod.mk.inj heq
    exact hinner _ _ hp

theorem closed_parse (fuel : ℕ) : ∀ nesting s r,
    (∀ j, parseValue fuel nesting s = some (j, r) → ∃ e, Closed false e s r) ∧
    (∀ js, parseElems fuel nesting s = some (js, r) → ∃ e, Closed false e s (93 :: r)) ∧
    (∀ ms, parseMembers fuel nesting s = some (ms, r) → ∃ e, Closed false e s (125 :: r)) := by
  induction fuel with
  | zero => exact fun _ _ _ => ⟨fun _ h => (by cases h), fun _ h => (by cases h), fun _ h => by cases h⟩
  | succ fuel ih =>
    intro nesting s r
    refine ⟨fun j h => ?_, fun js h => ?_, fun ms h => ?_⟩
    · obtain ⟨p, hp, hbody⟩ := Option.bind_eq_some_iff.1 h
      have hfirst := closed_nextByte false hp
      split_ifs at hbody with h91 _ h123
      · obtain ⟨e, he⟩ := closed_nested (fun l r => (ih _ _ r).2.1 l) hbody
        exact ⟨true, hfirst.trans (he.bracket (.inl h91) (.inl rfl))⟩
      · obtain ⟨e, he⟩ := closed_nested (fun l r => (ih _ _ r).2.2 l) hbody
        exact ⟨true, hfirst.trans (he.bracket (.inr h123) (.inr rfl))⟩
      · obtain ⟨e, he⟩ := closed_scalar hbody
        exact ⟨e, hfirst.trans he⟩
    · obtain ⟨v, hv, hbody⟩ := Option.bind_eq_some_iff.1 h
      obtain ⟨e, he⟩ := (ih nesting s v.2).1 v.1 hv
      obtain ⟨e', he'⟩ := closed_tail (fun t l r => (ih nesting t r).2.1 l) e hbody
      exact ⟨e', he.trans he'⟩
    · obtain ⟨s₁, h₁, h⟩ := Option.bind_eq_some_iff.1 h
      obtain ⟨key, hkey, h⟩ := Option.bind_eq_some_iff.1 h
      obtain ⟨s₂, h₂, h⟩ := Option.bind_eq_some_iff.1 h
      obtain ⟨v, hv, hbody⟩ := Option.bind_eq_some_iff.1 h
      have hcolon : Closed true false key.2 s₂ := (closed_expect true h₂).trans (closed_cons rfl s₂)
      obtain ⟨e, he⟩ := (ih nesting s₂ v.2).1 v.1 hv
      obtain ⟨e', he'⟩ := closed_tail (fun t l r => (ih nesting t r).2.2 l) e hbody
      exact ⟨e', (((closed_expect false h₁).trans (closed_string hkey)).trans hcolon).trans (he.trans he')⟩

/-! ### What follows a cut -/

/-- What can stand behind a cut: nothing, or an object whose first key does not begin like what may come after
a string. -/
structure Resumes (x : Str) : Prop where
  begins : x = [] ∨ ∃ b y, x = 123 :: 34 :: b :: y ∧ Begins b
  closed : ∃ e, Closed false e x []

theorem stops_nil : Stops [] := fun _ _ h => by cases h

theorem resumes_nil : Resumes [] := ⟨Or.inl rfl, false, [], rfl, rfl⟩

theorem parseValue_render_self (hj : j.WellFormed) :
    parseValue (2 * j.render.length) j.depth j.render = some (j.coerce, []) := by
  have h := parseValue_render j hj le_rfl le_rfl stops_nil
  rwa [List.append_nil] at h

theorem resumes_render (hj : j.WellFormed) {y : Str} (hrender : j.render = 123 :: 34 :: b :: y)
    (hb : Begins b) : Resumes j.render :=
  ⟨Or.inr ⟨b, y, hrender, hb⟩, (closed_parse _ _ _ _).1 _ (parseValue_render_self hj)⟩

theorem closed_obj (hj : (obj ms).WellFormed) : ∃ e, Closed false e (render.renderMembers ms) [125] := by
  have h := parseValue_render_self hj
  obtain ⟨m, hm⟩ : ∃ m, 2 * (obj ms).render.length = m + 1 := ⟨_, by rw [render, List.length_cons]; rfl⟩
  have hne : (123 : UInt8) ≠ 91 := by decide
  rw [hm, render, parseValue, nextByte_of_begins (by decide), Option.bind_some, if_neg hne, if_pos rfl] at h
  split_ifs at h
  exact closed_nested (fun l r => (closed_parse m _ _ r).2.2 l) h

theorem run_torn (hj : (obj ms).WellFormed) {u : Str} (hu : u <+: (obj ms).render) (hne : u ≠ [])
    (hproper : u ≠ (obj ms).render) :
    ∃ k inside e, Scan.run ⟨0, none, false⟩ u = some ⟨k + 1, inside, e⟩ := by
  obtain ⟨e, c, hc, hrun⟩ := closed_obj hj
  obtain ⟨v, rfl, hv⟩ := (List.prefix_cons_iff.1 hu).resolve_left hne
  rw [hc] at hv
  obtain ⟨w, rfl⟩ : v <+: c := by
    rcases List.prefix_concat_iff.1 hv with rfl | hv
    · exact absurd (by rw [render, hc]) hproper
    · exact hv
  rw [Scan.run_append] at hrun
  obtain ⟨⟨k, inside, e⟩, hmid, -⟩ := Option.bind_eq_some_iff.1 hrun
  exact ⟨k, inside, e, Scan.run_shift 1 v hmid⟩

/-- Where there is an open bracket or a string, what follows does not lead to the end of a text. -/
theorem Resumes.run_ne {x : Str} (hx : Resumes x) (k : ℕ) (inside : Option StrState) (e e' : Bool) :
    Scan.run ⟨k + 1, inside, e⟩ x ≠ some ⟨0, none, e'⟩ := by
  intro h
  rcases hx.begins with rfl | ⟨b, y, hxy, hb⟩
  · exact absurd (congrArg Scan.depth (Option.some.inj h)) (Nat.succ_ne_zero k)
  have hend : Scan.next ⟨k + 1, none, true⟩ b = none := by
    simp only [Begins, List.mem_cons, List.not_mem_nil, or_false, not_or] at hb
    simp [Scan.next, hb]
  cases inside with
  | some st =>
    rw [hxy] at h
    -- the brace is a part of the string, and the quote ends it
    cases st with
    | plain =>
      have hrest : (Scan.next ⟨k + 1, none, true⟩ b).bind (Scan.run · y) = some ⟨0, none, e'⟩ := h
      rw [hend] at hrest
      cases hrest
    | escape => cases h
    | hex n => cases n <;> cases h
  | none =>
    cases e with
    | true =>
      rw [hxy] at h
      cases h
    | false =>
      obtain ⟨e'', c, hc, hrun⟩ := hx.closed
      rw [List.append_nil] at hc
      subst hc
      have hshift := Scan.run_shift (k + 1) x hrun
      rw [Nat.zero_add] at hshift
      exact absurd (congrArg Scan.depth (Option.some.inj (hshift.symm.trans h))) (Nat.succ_ne_zero k)

theorem run_of_parse (h : parse s = some j) : ∃ e, Scan.run ⟨0, none, false⟩ s = some ⟨0, none, e⟩ := by
  obtain ⟨p, hp, hif⟩ := Option.bind_eq_some_iff.1 h
  split_ifs at hif with hspace
  obtain ⟨e, he⟩ := (closed_parse _ _ _ p.2).1 p.1 hp
  have hrest := closed_skipSpace e p.2
  rw [hspace] at hrest
  obtain ⟨c, hc, hrun⟩ := he.trans hrest
  rw [hc, List.append_nil]
  exact ⟨e, hrun⟩

/-- **A text that was cut off is no JSON**, alone or with another object behind it; and neither is a whole
one with another behind it. -/
theorem parse_torn {x : Str} (hx : Resumes x) (hj : (obj ms).WellFormed) {u : Str}
    (hu : u <+: (obj ms).render) (hne : u ≠ []) (hcut : u = (obj ms).render → x ≠ []) :
    parse (u ++ x) = none := by
  refine Option.eq_none_iff_forall_ne_some.2 fun j h => ?_
  obtain ⟨e, hrun⟩ := run_of_parse h
  rw [Scan.run_append] at hrun
  obtain ⟨mid, hmid, hafter⟩ := Option.bind_eq_some_iff.1 hrun
  by_cases hwhole : u = (obj ms).render
  · obtain ⟨b, y, rfl, -⟩ := hx.begins.resolve_left (hcut hwhole)
    obtain ⟨e', he'⟩ := closed_obj hj
    have hwholeClosed : Closed false true (123 :: _) [] := he'.bracket (.inr rfl) (.inr rfl)
    obtain ⟨c, hc, hclosed⟩ := hwholeClosed
    rw [hwhole, render, hc, List.append_nil, hclosed] at hmid
    obtain rfl := Option.some.inj hmid
    cases hafter
  · obtain ⟨k, inside, e', htorn⟩ := run_torn hj hu hne hwhole
    obtain rfl := Option.some.inj (hmid.symm.trans htorn)
    exact hx.run_ne k inside e' e hafter

end Wavicle.Lib.Json
