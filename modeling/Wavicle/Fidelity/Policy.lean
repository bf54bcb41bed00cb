import Wavicle.Lib.Strconv

/-! # Policy globs

`fidelity/policy.go`: the rules of a policy are for paths that match a pattern, segment by segment. At the
end of a pattern `**` stands for at least one segment, and elsewhere for any number of them. -/

namespace Wavicle.Fidelity

open Lib List

/-- The closure `normalize` of `matchGlob`. -/
def normalize (s : Str) : List Str :=
  let trimmed := trim (s.map fun b => if b = 58 then 47 else b) (str "/")
  if trimmed = [] then [] else trimmed.splitOn 47

def matchParts : List Str → List Str → Bool
  | [], path => path = []
  | _ :: _, [] => false
  | p :: pattern, part :: path =>
    if p = str "**" then
      -- the loop over the rests of the path is not reached at the end of the pattern
      pattern = [] || (range (path.length + 1)).any fun k => matchParts pattern ((part :: path).drop k)
    else if p ≠ str "*" ∧ p ≠ part then false
    else matchParts pattern path

def matchGlob (pattern path : Str) : Bool := matchParts (normalize pattern) (normalize path)

/-- `MatchRule`, on the patterns of the rules: the index of the rule, which is out of range without rules. -/
def matchRule (patterns : List Str) (path : Str) : Option ℕ :=
  (patterns.findIdx? (matchGlob · path)).or (if patterns = [] then none else some (patterns.length - 1))

/-- What a pattern says: `*` is one segment, and `**` any number of them. -/
def Matches : List Str → List Str → Prop
  | [], path => path = []
  | p :: pattern, path =>
    if p = str "**" then ∃ k, Matches pattern (path.drop k)
    else ∃ part rest, path = part :: rest ∧ (p = str "*" ∨ p = part) ∧ Matches pattern rest

/-- The pattern with one more segment after a `**` at its end. -/
def filledOut (pattern : List Str) : List Str :=
  if pattern.getLast? = some (str "**") then pattern ++ [str "*"] else pattern

section

variable {p : Str} {pattern path : List Str}

theorem filledOut_stars : filledOut [str "**"] = [str "**", str "*"] := by decide

theorem filledOut_cons (h : pattern ≠ [] ∨ p ≠ str "**") :
    filledOut (p :: pattern) = p :: filledOut pattern := by
  unfold filledOut
  cases pattern with
  | nil => simp [h.resolve_left (by simp)]
  | cons q pattern =>
    rw [getLast?_cons_cons]
    split_ifs <;> rfl

theorem matches_stars : Matches (str "**" :: pattern) path ↔ ∃ k, Matches pattern (path.drop k) := by
  rw [Matches, if_pos rfl]

theorem matches_cons (hp : p ≠ str "**") {part : Str} :
    Matches (p :: pattern) (part :: path) ↔ (p = str "*" ∨ p = part) ∧ Matches pattern path := by
  rw [Matches, if_neg hp]
  constructor
  · rintro ⟨_, _, ⟨⟩, h⟩
    exact h
  · exact fun h => ⟨part, path, rfl, h⟩

theorem not_matches_nil (h : pattern ≠ []) : ¬ Matches (filledOut pattern) [] := by
  induction pattern with
  | nil => exact absurd rfl h
  | cons p pattern ih =>
    by_cases hp : p = str "**"
    · subst hp
      by_cases hpattern : pattern = []
      · subst hpattern
        rw [filledOut_stars]
        simp [Matches, str]
      · rw [filledOut_cons (.inl hpattern), matches_stars]
        simpa using ih hpattern
    · simp [filledOut_cons (.inr hp), Matches, hp]

theorem matches_of_filledOut (h : Matches (filledOut pattern) path) : Matches pattern path := by
  induction pattern generalizing path with
  | nil => exact h
  | cons p pattern ih =>
    by_cases hp : p = str "**"
    · subst hp
      rw [matches_stars]
      by_cases hpattern : pattern = []
      · exact ⟨path.length, by simp [hpattern, Matches]⟩
      · rw [filledOut_cons (.inl hpattern), matches_stars] at h
        exact h.imp fun k => ih
    · rw [filledOut_cons (.inr hp), Matches, if_neg hp] at h
      obtain ⟨part, rest, rfl, hpart, h⟩ := h
      exact (matches_cons hp).2 ⟨hpart, ih h⟩

/-- **The loop of `matchParts`** finds what the pattern says once it is filled out. -/
theorem matchParts_iff : matchParts pattern path = true ↔ Matches (filledOut pattern) path := by
  induction pattern generalizing path with
  | nil => simp [matchParts, filledOut, Matches]
  | cons p pattern ih =>
    cases path with
    | nil => exact iff_of_false (by simp [matchParts]) (not_matches_nil (by simp))
    | cons part path =>
      by_cases hp : p = str "**"
      · subst hp
        by_cases hpattern : pattern = []
        · subst hpattern
          have hlength : ((part :: path).drop path.length).length = 1 := by simp
          obtain ⟨last, hlast⟩ := length_eq_one_iff.1 hlength
          refine iff_of_true (by simp [matchParts]) ?_
          rw [filledOut_stars, matches_stars]
          exact ⟨path.length, by simp [hlast, Matches, str]⟩
        · rw [filledOut_cons (.inl hpattern), matches_stars]
          simp only [matchParts, if_true, hpattern, decide_false, Bool.false_or, any_eq_true, mem_range, ih]
          -- nothing matches at the end of the path, where the loop does not look
          refine exists_congr fun k => and_iff_right_of_imp fun hk => ?_
          by_contra hlt
          rw [drop_eq_nil_of_le (by simpa using hlt)] at hk
          exact not_matches_nil hpattern hk
      · rw [filledOut_cons (.inr hp), matches_cons hp, ← ih]
        by_cases hpart : p = str "*" ∨ p = part
        · simp [matchParts, hp, hpart, ← not_or]
        · simp [matchParts, hp, hpart, ← not_or]

end

/-- What a pattern stands for, once it and the path are normalized. -/
def Means (pattern path : Str) : Prop := Matches (normalize pattern) (normalize path)

theorem agree_iff {pattern path : Str} : (matchGlob pattern path = true ↔ Means pattern path) ↔
    ((normalize pattern).getLast? = some (str "**") → Means pattern path →
      Matches (normalize pattern ++ [str "*"]) (normalize path)) := by
  rw [matchGlob, matchParts_iff]
  refine Iff.trans ⟨fun h => h.2, fun h => ⟨matches_of_filledOut, h⟩⟩ ?_
  unfold filledOut
  split_ifs with hlast
  · exact ⟨fun h _ => h, fun h => h hlast⟩
  · exact iff_of_true id fun h => absurd h hlast

/-- The globs of a policy mean what they say on a path, and its first rule that matches is found. -/
def FindsFirst (patterns : List Str) (path : Str) : Prop :=
  (∀ pattern ∈ patterns, (matchGlob pattern path = true ↔ Means pattern path)) ∧
    ∀ (i : ℕ) (h : i < patterns.length), Means patterns[i] path →
      (∀ (j : ℕ) (hj : j < i), ¬ Means patterns[j] path) → matchRule patterns path = some i

/-- **Globs mean what they say** exactly if the path matches no pattern only because a `**` at the end stands
for nothing. -/
theorem findsFirst_iff (patterns : List Str) (path : Str) : FindsFirst patterns path ↔
    ∀ pattern ∈ patterns, (normalize pattern).getLast? = some (str "**") → Means pattern path →
      Matches (normalize pattern ++ [str "*"]) (normalize path) := by
  refine ⟨fun h pattern hpattern => agree_iff.1 (h.1 pattern hpattern), fun h => ?_⟩
  have hagree := fun pattern hpattern => agree_iff.2 (h pattern hpattern)
  refine ⟨hagree, fun i hi hmeans hfirst => ?_⟩
  have hfind : patterns.findIdx? (matchGlob · path) = some i :=
    findIdx?_eq_some_iff_getElem.2 ⟨hi, (hagree _ (getElem_mem hi)).2 hmeans, fun j hj hmatch =>
      hfirst j hj ((hagree _ (getElem_mem _)).1 hmatch)⟩
  rw [matchRule, hfind, Option.some_or]

/-- The path `/payment` has the rule of all other paths. -/
theorem payment_unmatched : Means (str "/payment/**") (str "/payment") ∧
    matchRule [str "/payment/**", str "**"] (str "/payment") = some 1 ∧
    ¬ FindsFirst [str "/payment/**", str "**"] (str "/payment") := by
  have hparts : normalize (str "/payment/**") = [str "payment", str "**"] ∧
      normalize (str "/payment") = [str "payment"] := by decide +kernel
  have hmeans : Means (str "/payment/**") (str "/payment") := by
    rw [Means, hparts.1, hparts.2, matches_cons (by decide), matches_stars]
    exact ⟨.inr rfl, 0, rfl⟩
  refine ⟨hmeans, by decide +kernel, fun h => ?_⟩
  exact absurd ((h.1 _ (.head _)).2 hmeans) (by decide +kernel)

end Wavicle.Fidelity
