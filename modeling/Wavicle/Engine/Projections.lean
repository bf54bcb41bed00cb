import Wavicle.Engine.Queries
import Wavicle.Lib.Substrings
import Wavicle.Storage.Postgres

/-! # Parsing queries

`SQLToProofTree` finds `FROM` and `WHERE` by their first occurrences in the query in upper case and cuts the
query itself there, without a look at the order of the two places.

* `SlicesInRange`, `sql_in_range_iff`: when the cuts are in order, so that there is no panic.
* `selectText`: the queries `SELECT c1, …, cn FROM t WHERE id = v`, and `DependsOn`: which paths a query reads.
* `KeywordsInPlace`: the places that are found are those of the two keywords. A name can have a keyword in it, and
  a letter beyond ASCII can have more bytes in upper case, as `ɐ` has.
* `projection_iff`: a projection is read as it is written exactly if its keywords are in place. -/

namespace Wavicle.Engine

open Lib Wavicle.Core Storage List

/-! ### The texts of projections -/

/-- The ASCII bytes of identifiers. -/
def isWordByte (b : UInt8) : Bool := isASCIILetter b || isASCIIDigit b || b = 95

theorem isWordByte_spec : ∀ b, isWordByte b = true →
    b ≠ 58 ∧ b ≠ 44 ∧ b ≠ 32 ∧ b ≠ 61 ∧ isSpace b = false := by
  decide +kernel

def columnList (cs : List Str) : Str := List.intercalate (str ", ") cs

/-- `SELECT c1, …, cn FROM t WHERE id = v` -/
def selectText (cs : List Str) (t v : Str) : Str :=
  str "SELECT " ++ columnList cs ++ str " FROM " ++ t ++ str " WHERE id = " ++ v

def beforeFrom (cs : List Str) : Str := str "SELECT " ++ (columnList cs ++ [32])

def beforeWhere (cs : List Str) (t : Str) : Str := beforeFrom cs ++ (str "FROM" ++ (32 :: (t ++ [32])))

def beforeEquals (cs : List Str) (t : Str) : Str := beforeWhere cs t ++ str "WHERE id "

theorem selectText_eq (cs : List Str) (t v : Str) :
    selectText cs t v = beforeEquals cs t ++ (61 :: 32 :: v) := by
  have hfrom : str " FROM " = [32] ++ (str "FROM" ++ [32]) := by decide
  have hwhere : str " WHERE id = " = [32] ++ (str "WHERE id " ++ [61, 32]) := by decide
  unfold selectText beforeEquals beforeWhere beforeFrom
  rw [hfrom, hwhere]
  simp only [append_assoc, cons_append, nil_append]

theorem columnList_cons (c c' : Str) (cs : List Str) :
    columnList (c :: c' :: cs) = c ++ 44 :: (32 :: columnList (c' :: cs)) := by
  unfold columnList
  rw [intercalate_cons_cons, append_assoc]
  rfl

theorem columnList_singleton (c : Str) : columnList [c] = c := intercalate_singleton

theorem countP_columnList {P : UInt8 → Bool} (hcomma : P 44 = false) (hblank : P 32 = false) :
    ∀ cs : List Str, (columnList cs).countP P = (cs.map (countP P)).sum
  | [] => rfl
  | [c] => by simp [columnList_singleton]
  | c :: c' :: cs => by
    have ih := countP_columnList hcomma hblank (c' :: cs)
    rw [columnList_cons, countP_append, countP_cons_of_neg (by simp [hcomma]),
      countP_cons_of_neg (by simp [hblank]), ih]
    simp only [map_cons, sum_cons]

theorem mem_columnList {b : UInt8} : ∀ {cs : List Str}, b ∈ columnList cs → b = 44 ∨ b = 32 ∨ ∃ c ∈ cs, b ∈ c
  | [], h => by cases h
  | [c], h => .inr (.inr ⟨c, .head _, columnList_singleton c ▸ h⟩)
  | c :: c' :: cs, h => by
    rw [columnList_cons] at h
    rcases mem_append.1 h with h | h
    · exact .inr (.inr ⟨c, .head _, h⟩)
    · rcases mem_cons.1 h with rfl | h
      · exact .inl rfl
      · rcases mem_cons.1 h with rfl | h
        · exact .inr (.inl rfl)
        · exact (mem_columnList h).imp_right (.imp_right fun ⟨d, hd, hb⟩ => ⟨d, .tail _ hd, hb⟩)

theorem length_columnList_map {g : Str → Str} : ∀ {cs : List Str}, (∀ c ∈ cs, (g c).length = c.length) →
    (columnList (cs.map g)).length = (columnList cs).length
  | [], _ => rfl
  | [c], h => by
    rw [map_singleton, columnList_singleton, columnList_singleton]
    exact h c (.head _)
  | c :: c' :: cs, h => by
    have ih := length_columnList_map (forall_mem_cons.1 h).2
    rw [map_cons] at ih
    rw [map_cons, map_cons, columnList_cons, columnList_cons]
    simp only [length_append, length_cons, h c (.head _), ih]

variable {cs : List Str} {t v : Str}

/-- What stands after the `FROM` of a projection. -/
theorem drop_selectText_table (cs : List Str) (t v : Str) :
    ∃ more, (selectText cs t v).drop ((beforeFrom cs).length + 4) = 32 :: (t ++ 32 :: 87 :: more) := by
  refine ⟨str "HERE id " ++ 61 :: 32 :: v, ?_⟩
  rw [selectText_eq, beforeEquals, beforeWhere]
  simp only [append_assoc, cons_append, nil_append, ← drop_drop, drop_left]
  rfl

/-- What is left if the place of `FROM` is taken for one less. -/
theorem drop_selectText_early {fromIdx : ℕ} (hfrom : fromIdx + 1 = (beforeFrom cs).length) :
    ∃ more, (selectText cs t v).drop (fromIdx + 4) = 77 :: 32 :: (t ++ 32 :: more) := by
  refine ⟨str "WHERE id " ++ 61 :: 32 :: v, ?_⟩
  have hidx : fromIdx + 4 = (beforeFrom cs).length + 3 := by omega
  rw [hidx, selectText_eq, beforeEquals, beforeWhere]
  simp only [append_assoc, cons_append, nil_append, ← drop_drop, drop_left]
  rfl

theorem length_beforeFrom (cs : List Str) : (beforeFrom cs).length = (columnList cs).length + 8 := by
  rw [beforeFrom, length_append, length_append, Nat.add_comm]
  rfl

theorem length_beforeWhere (cs : List Str) (t : Str) :
    (beforeWhere cs t).length = (beforeFrom cs).length + t.length + 6 := by
  simp [beforeWhere, str]
  omega

theorem length_beforeEquals (cs : List Str) (t : Str) :
    (beforeEquals cs t).length = (beforeWhere cs t).length + 9 := by
  rw [beforeEquals, length_append]
  rfl

section Keywords

variable {k : Str} (hk : k ≠ []) (hcomma : (44 : UInt8) ∉ k) (hblank : (32 : UInt8) ∉ k)

include hk hcomma hblank

theorem isInfix_columnList : ∀ us : List Str, k <:+: columnList us ↔ ∃ u ∈ us, k <:+: u
  | [] => by simp [columnList, hk]
  | [u] => by simp [columnList_singleton]
  | u :: u' :: us => by
    have ih := isInfix_columnList (u' :: us)
    have hnil : columnList (u :: u' :: us) = u ++ 44 :: ([] ++ 32 :: columnList (u' :: us)) := columnList_cons ..
    rw [hnil, isInfix_append_cons hcomma, isInfix_append_cons hblank, ih, infix_nil, exists_mem_cons_iff]
    simp [hk]

theorem isInfix_beforeFrom (us : List Str) (w : Str) : k <:+: beforeFrom us ++ w ↔
    k <:+: str "SELECT" ∨ (∃ u ∈ us, k <:+: u) ∨ k <:+: w := by
  have htext : beforeFrom us ++ w = str "SELECT" ++ 32 :: (columnList us ++ 32 :: w) := by
    have hselect : str "SELECT " = str "SELECT" ++ [32] := by decide
    unfold beforeFrom
    rw [hselect]
    simp only [append_assoc, cons_append, nil_append]
  rw [htext, isInfix_append_cons hblank, isInfix_append_cons hblank, isInfix_columnList hk hcomma hblank]

end Keywords

theorem indexOf_beforeWhere (us : List Str) (u x : Str)
    (hcols : ∀ c ∈ us, ¬ str "FROM" <:+: c ∧ ¬ str "WHERE" <:+: c) (htable : ¬ str "WHERE" <:+: u) :
    indexOf (str "FROM") (beforeWhere us u ++ (str "WHERE" ++ x)) = some (beforeFrom us).length ∧
      indexOf (str "WHERE") (beforeWhere us u ++ (str "WHERE" ++ x)) = some (beforeWhere us u).length := by
  refine ⟨?_, indexOf_append (fun h => ?_) _⟩
  · rw [beforeWhere, append_assoc, append_assoc]
    refine indexOf_append (fun h => ?_) _
    rcases (isInfix_beforeFrom (by decide) (by decide) (by decide) us _).1 h with h | ⟨c, hmem, h⟩ | h
    · exact absurd h (by decide)
    · exact (hcols c hmem).1 h
    · exact absurd h (by decide)
  · rw [beforeWhere, append_assoc] at h
    rcases (isInfix_beforeFrom (by decide) (by decide) (by decide) us _).1 h with h | ⟨c, hmem, h⟩ | h
    · exact absurd h (by decide)
    · exact (hcols c hmem).2 h
    · simp only [append_assoc, cons_append, nil_append] at h
      rcases (isInfix_append_cons (by decide)).1 h with h | h
      · exact absurd h (by decide)
      · rcases (isInfix_append_cons (by decide)).1 h with h | h
        · exact htable h
        · exact absurd h (by decide)

/-- A path is made from names without colons in one way only, if the id is the same. -/
theorem names_of_paths {q : Query} (hcs : cs ≠ []) (hcols : ∀ d ∈ q.cols, 58 ∉ d) (htable : 58 ∉ q.table)
    (hc : ∀ c ∈ cs, 58 ∉ c) (ht : 58 ∉ t)
    (h : q.cols.map q.path = cs.map fun c => t ++ str ":" ++ v ++ str ":" ++ c) : q.cols = cs ∧ q.table = t := by
  have hpath : ∀ {d c : Str}, 58 ∉ d → 58 ∉ c → q.path d = t ++ str ":" ++ v ++ str ":" ++ c →
      d = c ∧ q.table = t := by
    intro d c hd hc heq
    have heq' : (q.table ++ 58 :: q.id) ++ 58 :: d = (t ++ 58 :: v) ++ 58 :: c := by
      simpa [Query.path, str] using heq
    obtain ⟨hfront, rfl⟩ := append_cons_inj_right hd hc heq'
    exact ⟨rfl, (append_cons_inj htable ht hfront).1⟩
  obtain ⟨c, cs, rfl⟩ := exists_cons_of_ne_nil hcs
  obtain ⟨d, ds, hds⟩ : ∃ d ds, q.cols = d :: ds := by
    refine exists_cons_of_ne_nil fun hnil => ?_
    rw [hnil] at h
    cases h
  refine ⟨?_, ?_⟩
  · have hall : ∀ {ds cs : List Str}, (∀ d ∈ ds, 58 ∉ d) → (∀ c ∈ cs, 58 ∉ c) →
        (ds.map q.path = cs.map fun c => t ++ str ":" ++ v ++ str ":" ++ c) → ds = cs := by
      intro ds
      induction ds with
      | nil =>
        intro cs _ _ heq
        exact (map_eq_nil_iff.1 heq.symm).symm
      | cons d ds ih =>
        intro cs hd hc heq
        cases cs with
        | nil => cases heq
        | cons c cs =>
          obtain ⟨hhead, htail⟩ := List.cons.inj heq
          rw [(hpath (hd d (.head _)) (hc c (.head _)) hhead).1,
            ih (forall_mem_cons.1 hd).2 (forall_mem_cons.1 hc).2 htail]
    exact hall hcols hc h
  · rw [hds] at h hcols
    exact (hpath (hcols d (.head _)) (hc c (.head _)) (List.cons.inj h).1).2

section

variable [RuneClasses] {c : Str}

theorem ne_nil_of_isValidIdentifier (hc : isValidIdentifier c = true) : c ≠ [] := by
  rintro rfl
  cases hc

theorem isWordByte_of_isASCII (hc : isValidIdentifier c = true) (hascii : isASCII c = true) :
    ∀ b ∈ c, isWordByte b = true := by
  unfold isValidIdentifier at hc
  rw [if_pos hascii] at hc
  split_ifs at hc
  exact all_eq_true.1 (Bool.and_eq_true_iff.1 hc).2

end

section Parsing

variable [Unicode] [Spaces]

/-! ### Slices -/

/-- The keywords that are found stand in an order for which no slice panics. -/
def SlicesInRange (query : Str) : Prop :=
  ∀ fromIdx whereIdx, hasPrefix (toUpper query) (str "SELECT") = true →
    indexOf (str "FROM") (toUpper query) = some fromIdx →
    indexOf (str "WHERE") (toUpper query) = some whereIdx →
    7 ≤ fromIdx ∧ fromIdx + 4 ≤ whereIdx ∧ whereIdx + 5 ≤ query.length

/-- What is parsed from a `SELECT` cut at these places. -/
def cutQuery (query : Str) (fromIdx whereIdx : ℕ) : Except Fault Query :=
  match indexOf (str "=") (query.drop (whereIdx + 5)) with
  | none => .error (.error (str "malformed SQL: only id = val is supported"))
  | some eqIdx =>
    .ok ⟨(split 44 ((query.take fromIdx).drop 7)).map trimSpace,
      trimSpace ((query.take whereIdx).drop (fromIdx + 4)),
      trim (trimSpace ((query.drop (whereIdx + 5)).drop (eqIdx + 1))) (str "'\"")⟩

theorem parseQuery_of_index {query : Str} {fromIdx whereIdx : ℕ}
    (hselect : hasPrefix (toUpper query) (str "SELECT") = true)
    (hfrom : indexOf (str "FROM") (toUpper query) = some fromIdx)
    (hwhere : indexOf (str "WHERE") (toUpper query) = some whereIdx) :
    parseQuery query = if 7 ≤ fromIdx ∧ fromIdx + 4 ≤ whereIdx ∧ whereIdx + 5 ≤ query.length then
      cutQuery query fromIdx whereIdx else .error .panic := by
  unfold parseQuery
  simp only [hselect, Bool.not_true, Bool.false_eq_true, if_false, hfrom, hwhere, slice]
  by_cases h : 7 ≤ fromIdx ∧ fromIdx + 4 ≤ whereIdx ∧ whereIdx + 5 ≤ query.length
  · obtain ⟨h₁, h₂, h₃⟩ := h
    rw [if_pos ⟨h₁, by omega⟩, if_pos ⟨h₂, by omega⟩, if_pos ⟨h₃, le_rfl⟩, if_pos ⟨h₁, h₂, h₃⟩,
      take_length]
    rfl
  · rw [if_neg h]
    split
    · rename_i colsPart tablePart wherePart hcols htable hrest
      split_ifs at hcols htable hrest
      omega
    · rfl

theorem parseQuery_cases (query : Str) : (∃ msg, parseQuery query = .error (.error msg)) ∨
    hasPrefix (toUpper query) (str "SELECT") = true ∧ ∃ fromIdx whereIdx,
      indexOf (str "FROM") (toUpper query) = some fromIdx ∧
        indexOf (str "WHERE") (toUpper query) = some whereIdx := by
  unfold parseQuery
  dsimp only
  split_ifs with hselect
  · exact .inl ⟨_, rfl⟩
  · split
    · rename_i fromIdx whereIdx hfrom hwhere
      exact .inr ⟨by simpa using hselect, fromIdx, whereIdx, hfrom, hwhere⟩
    · exact .inl ⟨_, rfl⟩

variable {ι H : Type} [DecidableEq H] {V : View ι H} {q : Query} {query : Str}

theorem eval_sqlToProofTree (hq : parseQuery query = .ok q) :
    (∃ hs, (sqlToProofTree query : StoreProg ι H _).eval V.answer = .ok (hs, q.primaryPath) ∧
      hs.map some = q.cols.map fun col => V.currentHash (q.path col)) ∨
    (∃ msg, (sqlToProofTree query : StoreProg ι H _).eval V.answer = .error (.error msg)) ∧
      (q.cols = [] ∨ ∃ col ∈ q.cols, V.current (q.path col) = none) := by
  unfold sqlToProofTree
  rw [hq]
  simp only [Prog.eval_bind]
  rcases eval_queryAtoms V q q.cols with ⟨hs, heval, hhs⟩ | ⟨⟨msg, heval⟩, hnone⟩
  · rw [heval]
    cases hs with
    | nil => exact .inr ⟨⟨_, rfl⟩, .inl (map_eq_nil_iff.1 hhs.symm)⟩
    | cons h hs => exact .inl ⟨h :: hs, rfl, hhs⟩
  · rw [heval]
    exact .inr ⟨⟨msg, rfl⟩, .inr hnone⟩

theorem eval_sqlToProofTree_error {f : Fault} (hq : parseQuery query = .error f) :
    (sqlToProofTree query : StoreProg ι H _).eval V.answer = .error f := by
  unfold sqlToProofTree
  rw [hq]
  rfl

/-- **A query is parsed within its bounds**, with an expression or an error for result, exactly if `FROM` and
`WHERE` are in their places. -/
theorem sql_in_range_iff (V : View ι H) (query : Str) :
    ((∃ atoms path, (sqlToProofTree query : StoreProg ι H _).eval V.answer = .ok (atoms, path)) ∨
      ∃ msg, (sqlToProofTree query : StoreProg ι H _).eval V.answer = .error (.error msg)) ↔
    SlicesInRange query := by
  have herror : ∀ msg, parseQuery query = .error (.error msg) →
      ∃ msg, (sqlToProofTree query : StoreProg ι H _).eval V.answer = .error (.error msg) :=
    fun msg hmsg => ⟨msg, eval_sqlToProofTree_error hmsg⟩
  constructor
  · intro h fromIdx whereIdx hselect hfrom hwhere
    by_contra hrange
    have hpanic := parseQuery_of_index hselect hfrom hwhere
    rw [if_neg hrange] at hpanic
    rw [eval_sqlToProofTree_error hpanic] at h
    rcases h with ⟨_, _, h⟩ | ⟨_, h⟩ <;> cases h
  · intro hrange
    rcases parseQuery_cases query with ⟨msg, hmsg⟩ | ⟨hselect, fromIdx, whereIdx, hfrom, hwhere⟩
    · exact .inr (herror msg hmsg)
    · have hparse := parseQuery_of_index hselect hfrom hwhere
      rw [if_pos (hrange fromIdx whereIdx hselect hfrom hwhere), cutQuery] at hparse
      split at hparse
      · exact .inr (herror _ hparse)
      · rcases eval_sqlToProofTree (V := V) hparse with ⟨hs, heval, -⟩ | ⟨hmsg, -⟩
        · exact .inl ⟨hs, _, heval⟩
        · exact .inr hmsg

theorem cut_of_parseQuery (h : parseQuery query = .ok q) : ∃ fromIdx whereIdx,
    indexOf (str "FROM") (toUpper query) = some fromIdx ∧
    indexOf (str "WHERE") (toUpper query) = some whereIdx ∧ (7 ≤ fromIdx ∧ fromIdx + 4 ≤ whereIdx) ∧
    (61 : UInt8) ∈ query.drop (whereIdx + 5) ∧
    q.cols = (split 44 ((query.take fromIdx).drop 7)).map trimSpace ∧
    q.table = trimSpace ((query.take whereIdx).drop (fromIdx + 4)) := by
  rcases parseQuery_cases query with ⟨msg, hmsg⟩ | ⟨hselect, fromIdx, whereIdx, hfrom, hwhere⟩
  · rw [hmsg] at h
    cases h
  · rw [parseQuery_of_index hselect hfrom hwhere] at h
    split_ifs at h with hrange
    unfold cutQuery at h
    split at h
    · cases h
    · rename_i eqIdx heq
      rw [← Except.ok.inj h]
      have hpre : [61] <+: (query.drop (whereIdx + 5)).drop eqIdx := isPrefix_drop_of_indexOf heq
      exact ⟨fromIdx, whereIdx, hfrom, hwhere, ⟨hrange.1, hrange.2.1⟩,
        (drop_suffix eqIdx _).subset (hpre.subset (.head _)), rfl, rfl⟩

/-! ### Dependencies -/

/-- The query depends on the current atoms of exactly these paths, in this order, and fails if one of them
is not there. -/
def DependsOn (ι H : Type) [DecidableEq H] (query : Str) (paths : List Str) : Prop :=
  ∀ V : View ι H,
    ((∃ r, (sqlToProofTree query : StoreProg ι H _).eval V.answer = .ok r) ↔
      ∀ p ∈ paths, (V.current p).isSome) ∧
    ∀ hs path, (sqlToProofTree query : StoreProg ι H _).eval V.answer = .ok (hs, path) →
      hs.map some = paths.map V.currentHash

theorem dependsOn_of_parseQuery (ι : Type) (hparse : parseQuery query = .ok q) (hcols : q.cols ≠ []) :
    DependsOn ι H query (q.cols.map q.path) := by
  intro V
  rw [map_map]
  rcases eval_sqlToProofTree (V := V) hparse with ⟨hs, heval, hhs⟩ | ⟨⟨msg, heval⟩, hnone⟩
  · refine ⟨iff_of_true ⟨_, heval⟩ fun p hp => ?_, fun hs' path heval' => ?_⟩
    · obtain ⟨c, hmem, rfl⟩ := mem_map.1 hp
      have hsome : V.currentHash (q.path c) ∈ hs.map some := hhs ▸ mem_map.2 ⟨c, hmem, rfl⟩
      obtain ⟨hash, -, heq⟩ := mem_map.1 hsome
      obtain ⟨a, ha, -⟩ := Option.map_eq_some_iff.1 heq.symm
      exact Option.isSome_iff_exists.2 ⟨a, ha⟩
    · obtain ⟨rfl, -⟩ := Prod.mk.inj (Except.ok.inj (heval'.symm.trans heval))
      exact hhs
  · refine ⟨iff_of_false (fun ⟨r, hr⟩ => ?_) fun hall => ?_, fun hs path hok => ?_⟩
    · rw [heval] at hr
      cases hr
    · obtain ⟨c, hmem, hcnone⟩ := hnone.resolve_left hcols
      have hsome := hall _ (mem_map_of_mem hmem)
      rw [hcnone] at hsome
      cases hsome
    · rw [heval] at hok
      cases hok

omit [Unicode] [Spaces] in
theorem map_eq_of_forall_update {l m : List Str}
    (h : ∀ p, l.map (fun q => decide (q = p)) = m.map fun q => decide (q = p)) : l = m := by
  have hlength : l.length = m.length := by simpa using congrArg List.length (h [])
  refine ext_getElem hlength fun i hi hi' => ?_
  have hp := congrArg (·[i]?) (h m[i])
  simp only [getElem?_map, getElem?_eq_getElem hi, getElem?_eq_getElem hi', Option.map_some, Option.some.injEq,
    decide_true, decide_eq_true_eq] at hp
  exact hp

/-- A query that depends on some paths parses, and its paths are these. -/
theorem paths_of_dependsOn [Nontrivial H] {ι : Type} {paths : List Str} (h : DependsOn ι H query paths) :
    ∃ q, parseQuery query = .ok q ∧ q.cols.map q.path = paths := by
  obtain ⟨h₀, h₁, hne⟩ := exists_pair_ne H
  -- in this view one path has another hash than all others
  let atom (hash : H) : CausalAtom ι H := ⟨hash, .eConst .vNull, [], 0, 0, [], [], 0⟩
  let single (p : Str) : View ι H := ⟨fun p' => some (atom (if p' = p then h₁ else h₀)), fun _ => none⟩
  cases hparse : parseQuery query with
  | error f =>
    obtain ⟨r, hr⟩ := (h (single [])).1.2 fun _ _ => rfl
    rw [eval_sqlToProofTree_error hparse] at hr
    cases hr
  | ok q =>
    refine ⟨q, rfl, map_eq_of_forall_update fun p => ?_⟩
    obtain ⟨⟨hs, path⟩, hr⟩ := (h (single p)).1.2 fun _ _ => rfl
    have hpaths := (h (single p)).2 hs path hr
    rcases eval_sqlToProofTree (V := single p) hparse with ⟨hs', heval, hhs⟩ | ⟨⟨msg, heval⟩, -⟩
    · obtain ⟨rfl, -⟩ := Prod.mk.inj (Except.ok.inj (hr.symm.trans heval))
      have hhashes : (q.cols.map q.path).map (single p).currentHash = paths.map (single p).currentHash := by
        rw [map_map]
        exact hhs.symm.trans hpaths
      have hread := congrArg (List.map fun x => decide (x = some h₁)) hhashes
      have hsingle : ∀ p', decide ((single p).currentHash p' = some h₁) = decide (p' = p) := by
        intro p'
        change decide (some (if p' = p then h₁ else h₀) = some h₁) = _
        by_cases hp : p' = p
        · simp [hp]
        · simp [hp, hne]
      simp only [map_map, Function.comp_def, hsingle] at hread
      rw [map_map]
      exact hread
    · rw [heval] at hr
      cases hr

/-! ### Names -/

variable [RuneClasses]

/-- What is assumed of the Unicode tables. Text is mapped to upper case rune by rune, so that ASCII text and
identifiers are mapped by themselves; an identifier has no other ASCII bytes than those of words; and nothing but
white space is trimmed, with nothing of an identifier. -/
structure LawfulTexts : Prop where
  upper : ∀ s t, isASCII s = true → isASCII t = false →
    Unicode.mapToUpper (s ++ t) = s.map upperByte ++ Unicode.mapToUpper t
  upperName : ∀ c t, isValidIdentifier c = true → toUpper (c ++ t) = toUpper c ++ toUpper t
  space : ∀ s, isASCII s = false → Spaces.trimSpace (32 :: s) = Spaces.trimSpace s
  trims : ∀ s, isASCII s = false → ∃ l r, s = l ++ (Spaces.trimSpace s ++ r) ∧
    ∀ b ∈ l ++ r, b < 128 → isSpace b = true
  name : ∀ c, isASCII c = false → isValidIdentifier c = true → (∀ b ∈ c, b < 128 → isWordByte b = true) ∧
    Spaces.trimSpace c = c ∧ Spaces.trimSpace (c ++ [32]) = c

variable {c : Str}

theorem LawfulTexts.word_of_mem (hlaw : LawfulTexts) (hc : isValidIdentifier c = true) :
    ∀ b ∈ c, b < 128 → isWordByte b = true := by
  intro b hb hlt
  cases hascii : isASCII c with
  | true => exact isWordByte_of_isASCII hc hascii b hb
  | false => exact (hlaw.name c hascii hc).1 b hb hlt

/-- The separators are not among the bytes of an identifier. -/
theorem LawfulTexts.ne_of_mem (hlaw : LawfulTexts) (hc : isValidIdentifier c = true) {b : UInt8} (hb : b ∈ c) :
    b ≠ 58 ∧ b ≠ 44 ∧ b ≠ 32 ∧ b ≠ 61 := by
  have hword : ∀ {sep : UInt8}, sep < 128 → isWordByte sep = false → b ≠ sep := by
    rintro sep hlt hsep rfl
    rw [hlaw.word_of_mem hc b hb hlt] at hsep
    cases hsep
  exact ⟨hword (by decide) (by decide), hword (by decide) (by decide), hword (by decide) (by decide),
    hword (by decide) (by decide)⟩

theorem LawfulTexts.toUpper_append (hlaw : LawfulTexts) {s : Str} (hs : isASCII s = true) (v : Str) :
    toUpper (s ++ v) = s.map upperByte ++ toUpper v := by
  have hsv : isASCII (s ++ v) = isASCII v := by
    unfold isASCII at hs ⊢
    rw [all_append, hs, Bool.true_and]
  unfold toUpper
  rw [hsv]
  cases hv : isASCII v with
  | true => rw [if_pos rfl, if_pos rfl, map_append]
  | false => exact hlaw.upper s v hs hv

theorem LawfulTexts.exists_trimSpace (hlaw : LawfulTexts) (s : Str) : ∃ l r, s = l ++ (trimSpace s ++ r) ∧
    ∀ b ∈ l ++ r, b < 128 → isSpace b = true := by
  cases hs : isASCII s with
  | true =>
    obtain ⟨l, r, heq, hlr⟩ := exists_trimSpace_of_isASCII hs
    exact ⟨l, r, heq, fun b hb _ => hlr b hb⟩
  | false =>
    unfold trimSpace
    rw [if_neg (by simp [hs])]
    exact hlaw.trims s hs

theorem LawfulTexts.isInfix_trimSpace (hlaw : LawfulTexts) (s : Str) : trimSpace s <:+: s := by
  obtain ⟨l, r, heq, -⟩ := hlaw.exists_trimSpace s
  exact ⟨l, r, by rw [append_assoc, ← heq]⟩

/-- Nothing but white space is trimmed. -/
theorem LawfulTexts.count_trimSpace (hlaw : LawfulTexts) {b : UInt8} (hb : b < 128) (hspace : isSpace b = false)
    (s : Str) : (trimSpace s).count b = s.count b := by
  obtain ⟨l, r, heq, hlr⟩ := hlaw.exists_trimSpace s
  have hnot : ∀ x : Str, (∀ a ∈ x, a ∈ l ++ r) → x.count b = 0 := by
    intro x hx
    refine count_eq_zero.2 fun hmem => ?_
    rw [hlr b (hx b hmem) hb] at hspace
    cases hspace
  conv_rhs => rw [heq]
  rw [count_append, count_append, hnot l fun a ha => mem_append_left r ha,
    hnot r fun a ha => mem_append_right l ha, Nat.zero_add, Nat.add_zero]

theorem LawfulTexts.trimSpace_cons (hlaw : LawfulTexts) (v : Str) : trimSpace (32 :: v) = trimSpace v := by
  unfold trimSpace
  have hascii : isASCII (32 :: v) = isASCII v := rfl
  rw [hascii]
  split_ifs with hv
  · rfl
  · exact hlaw.space v (by simpa using hv)

/-- One blank before and one after an identifier are trimmed. -/
theorem LawfulTexts.trimSpace_name (hlaw : LawfulTexts) (hc : isValidIdentifier c = true) {r : Str}
    (hr : r = [] ∨ r = [32]) : trimSpace (c ++ r) = c := by
  cases hascii : isASCII c with
  | true =>
    have hspaces : ∀ b ∈ r, isSpace b = true := by
      rcases hr with rfl | rfl <;> simp [isSpace]
    have hall : isASCII (c ++ r) = true := by
      unfold isASCII at hascii ⊢
      rw [all_append, hascii]
      rcases hr with rfl | rfl <;> rfl
    exact trimSpace_append (l := []) (by simp) hspaces (ne_nil_of_isValidIdentifier hc)
      (fun b hb => (isWordByte_spec b (isWordByte_of_isASCII hc hascii b hb)).2.2.2.2) hall
  | false =>
    obtain ⟨-, hbare, hblank⟩ := hlaw.name c hascii hc
    have hnot : isASCII (c ++ r) = false := by
      unfold isASCII at hascii ⊢
      rw [all_append, hascii, Bool.false_and]
    unfold trimSpace
    rw [if_neg (by simp [hnot])]
    rcases hr with rfl | rfl
    · rw [append_nil, hbare]
    · exact hblank

/-- An id without quotes, equals signs and surrounding spaces. -/
def IsIdText (v : Str) : Prop := (∀ b ∈ v, b ∉ str "'\"=") ∧ trimSpace v = v

theorem IsIdText.trimmed (hlaw : LawfulTexts) {v : Str} (hv : IsIdText v) :
    trim (trimSpace (32 :: v)) (str "'\"") = v := by
  have hquotes : ∀ b ∈ v, b ∉ str "'\"" := fun b hb hmem => hv.1 b hb (mem_append_left [61] hmem)
  have hdrop : ∀ l : Str, (∀ b ∈ l, b ∉ str "'\"") → l.dropWhile (· ∈ str "'\"") = l := by
    intro l hl
    cases l with
    | nil => rfl
    | cons b l => exact dropWhile_cons_of_neg (by simpa using hl b (.head _))
  rw [hlaw.trimSpace_cons, hv.2, trim, hdrop v hquotes, hdrop v.reverse (by simpa using hquotes),
    reverse_reverse]

/-! ### Projections -/

/-- **The keywords are found where they are**: the first `FROM` and the first `WHERE` of the query in upper case
have the places of the keywords in the query. A `WHERE` that is found at the blank before the keyword does as well;
and so does, for a table with the name `M`, a `FROM` one place early, after which comes the last letter of the
keyword. -/
def KeywordsInPlace (cs : List Str) (t v : Str) : Prop :=
  ∃ fromIdx whereIdx, indexOf (str "FROM") (toUpper (selectText cs t v)) = some fromIdx ∧
    indexOf (str "WHERE") (toUpper (selectText cs t v)) = some whereIdx ∧
    (fromIdx = (beforeFrom cs).length ∧
        (whereIdx = (beforeWhere cs t).length ∨ whereIdx + 1 = (beforeWhere cs t).length) ∨
      t = str "M" ∧ fromIdx + 1 = (beforeFrom cs).length ∧ (whereIdx = fromIdx + 5 ∨ whereIdx = fromIdx + 6))

variable {cs : List Str} {t v : Str}

/-! ### Cuts that are not in place -/

section Lawful

variable (hlaw : LawfulTexts) (hcs : cs ≠ []) (hc : ∀ c ∈ cs, isValidIdentifier c = true)
  (ht : isValidIdentifier t = true)

include hlaw

/-- What the pieces of a text have in common with it: no byte of a word is lost, and none is added. -/
theorem count_of_pieces {x : Str} (h : (split 44 x).map trimSpace = cs) {b : UInt8} (hb : b < 128)
    (hspace : isSpace b = false) (hcomma : b ≠ 44) : (cs.map (count b)).sum = x.count b := by
  have hsum : (split 44 x).map (count b ∘ trimSpace) = (split 44 x).map (count b) :=
    map_congr_left fun part _ => hlaw.count_trimSpace hb hspace part
  rw [← h, map_map, hsum]
  exact sum_countP_split (by simpa using hcomma.symm) x

theorem countP_of_pieces {x : Str} (h : (split 44 x).map trimSpace = cs) {P : UInt8 → Bool}
    (hcomma : P 44 = false) : (cs.map (countP P)).sum ≤ x.countP P := by
  rw [← h, map_map, ← sum_countP_split hcomma x]
  exact sum_le_sum fun part _ => (hlaw.isInfix_trimSpace part).sublist.countP_le

include hc in
theorem exists_columnList_concat (hcs : cs ≠ []) :
    ∃ front last, columnList cs = front ++ [last] ∧ last ≠ 44 ∧ last ≠ 32 := by
  induction cs with
  | nil => exact absurd rfl hcs
  | cons c cs ih =>
    cases cs with
    | nil =>
      have hname := hc c (.head _)
      obtain ⟨front, last, rfl⟩ := (eq_nil_or_concat' c).resolve_left (ne_nil_of_isValidIdentifier hname)
      have hlast := hlaw.ne_of_mem hname (mem_append_right front (.head _))
      exact ⟨front, last, columnList_singleton _, hlast.2.1, hlast.2.2.1⟩
    | cons c' cs =>
      obtain ⟨front, last, heq, hlast⟩ := ih (forall_mem_cons.1 hc).2 (cons_ne_nil _ _)
      refine ⟨c ++ 44 :: 32 :: front, last, ?_, hlast⟩
      rw [columnList_cons, heq]
      simp only [append_assoc, cons_append]

include hc in
/-- The columns are read as they are written only if the first cut is at the blank after them or at the next
place. -/
theorem place_of_columns (hcs : cs ≠ []) {fromIdx : ℕ} (hseven : 7 ≤ fromIdx)
    (h : (split 44 (((selectText cs t v).take fromIdx).drop 7)).map trimSpace = cs) :
    fromIdx = (beforeFrom cs).length ∨ fromIdx + 1 = (beforeFrom cs).length := by
  obtain ⟨n, rfl⟩ := Nat.exists_eq_add_of_le hseven
  obtain ⟨more, htext⟩ : ∃ more, (selectText cs t v).drop 7 = columnList cs ++ 32 :: 70 :: more := by
    refine ⟨str "ROM" ++ (32 :: (t ++ [32])) ++ str "WHERE id " ++ 61 :: 32 :: v, ?_⟩
    rw [selectText_eq, beforeEquals, beforeWhere, beforeFrom]
    simp only [append_assoc]
    exact drop_left' rfl
  have hlength : (beforeFrom cs).length = 7 + ((columnList cs).length + 1) := by
    rw [beforeFrom, length_append, length_append]
    rfl
  rw [drop_take, Nat.add_sub_cancel_left, htext] at h
  rw [hlength]
  rcases Nat.lt_or_ge n (columnList cs).length with hshort | hlong
  · -- the last byte of the last column is cut off
    exfalso
    let P : UInt8 → Bool := fun b => decide (b ≠ 44 ∧ b ≠ 32)
    rw [take_append_of_le_length hshort.le] at h
    have hle := countP_of_pieces hlaw h (P := P) rfl
    rw [← countP_columnList (P := P) rfl rfl] at hle
    have hall : (columnList cs).countP P = ((columnList cs).take n).countP P + ((columnList cs).drop n).countP P := by
      rw [← countP_append, take_append_drop]
    have hnone : ((columnList cs).drop n).countP P = 0 := by omega
    obtain ⟨front, last, heq, hlast⟩ := exists_columnList_concat hlaw hc hcs
    have hn : n ≤ front.length := by
      have := congrArg List.length heq
      rw [length_append, length_singleton] at this
      omega
    have hmem : last ∈ (columnList cs).drop n := by
      rw [heq, drop_append_of_le_length hn]
      exact mem_append_right _ (.head _)
    exact countP_eq_zero.1 hnone last hmem (decide_eq_true hlast)
  · rcases Nat.lt_or_ge n ((columnList cs).length + 2) with hin | hover
    · omega
    · -- a letter of the keyword is in the last piece
      exfalso
      obtain ⟨m, rfl⟩ := Nat.exists_eq_add_of_le hover
      have htake : (columnList cs ++ 32 :: 70 :: more).take ((columnList cs).length + 2 + m) =
          columnList cs ++ 32 :: 70 :: more.take m := by
        rw [Nat.add_assoc, take_length_add_append, Nat.add_comm 2 m]
        rfl
      rw [htake] at h
      have hcount := count_of_pieces hlaw h (b := 70) (by decide) (by decide) (by decide)
      rw [count_append, count_cons_of_ne (by decide), count_cons_self] at hcount
      have hcolumns : (columnList cs).count 70 = (cs.map (count 70)).sum :=
        countP_columnList (P := (· == 70)) rfl rfl cs
      omega

include ht in
/-- After a cut at the keyword, the table is read as it is written only if the second cut is at the other keyword
or at the blank before it. -/
theorem place_of_table {whereIdx : ℕ} (hle : (beforeFrom cs).length + 4 ≤ whereIdx)
    (h : trimSpace (((selectText cs t v).take whereIdx).drop ((beforeFrom cs).length + 4)) = t) :
    whereIdx = (beforeWhere cs t).length ∨ whereIdx + 1 = (beforeWhere cs t).length := by
  obtain ⟨n, rfl⟩ := Nat.exists_eq_add_of_le hle
  obtain ⟨more, htext⟩ := drop_selectText_table cs t v
  have hlength : (beforeWhere cs t).length = (beforeFrom cs).length + 4 + (t.length + 2) := by
    rw [beforeWhere, length_append, length_append, Nat.add_assoc]
    simp [str]
  rw [drop_take, Nat.add_sub_cancel_left, htext] at h
  rw [hlength]
  rcases Nat.lt_or_ge t.length n with hlong | hshort
  · rcases Nat.lt_or_ge n (t.length + 3) with hin | hover
    · omega
    · exfalso
      obtain ⟨m, rfl⟩ := Nat.exists_eq_add_of_le hover
      have htake : (32 :: (t ++ 32 :: 87 :: more)).take (t.length + 3 + m) =
          32 :: (t ++ 32 :: 87 :: more.take m) := by
        have hsucc : t.length + 3 + m = (t.length + (m + 2)) + 1 := by omega
        rw [hsucc, take_succ_cons, take_length_add_append]
        rfl
      have hcount := hlaw.count_trimSpace (b := 87) (by decide) (by decide)
        ((32 :: (t ++ 32 :: 87 :: more)).take (t.length + 3 + m))
      rw [h, htake, count_cons_of_ne (by decide), count_append, count_cons_of_ne (by decide), count_cons_self]
        at hcount
      omega
  · -- the end of the name is cut off
    exfalso
    have hword : ∀ x : Str, x <+: t → x.countP (fun b => decide (b ≠ 32)) = x.length := fun x hx =>
      countP_eq_length.2 fun b hb => decide_eq_true (hlaw.ne_of_mem ht (hx.subset hb)).2.2.1
    have hinfix := hlaw.isInfix_trimSpace ((32 :: (t ++ 32 :: 87 :: more)).take n)
    rw [h] at hinfix
    have hcount := hinfix.sublist.countP_le (p := fun b => decide (b ≠ 32))
    rw [hword t prefix_rfl] at hcount
    cases n with
    | zero => exact ne_nil_of_isValidIdentifier ht (length_eq_zero_iff.1 (Nat.le_zero.1 hcount))
    | succ n =>
      rw [take_succ_cons, countP_cons_of_neg (by simp), take_append_of_le_length (by omega),
        hword _ (List.take_prefix n t), length_take] at hcount
      omega

include ht in
/-- After a cut one place before the keyword, its last letter is read as the table. -/
theorem place_of_table_early {fromIdx whereIdx : ℕ} (hfrom : fromIdx + 1 = (beforeFrom cs).length)
    (hle : fromIdx + 4 ≤ whereIdx)
    (h : trimSpace (((selectText cs t v).take whereIdx).drop (fromIdx + 4)) = t) :
    t = str "M" ∧ (whereIdx = fromIdx + 5 ∨ whereIdx = fromIdx + 6) := by
  obtain ⟨n, rfl⟩ := Nat.exists_eq_add_of_le hle
  obtain ⟨b, name, rfl⟩ := exists_cons_of_ne_nil (ne_nil_of_isValidIdentifier ht)
  obtain ⟨more, htext⟩ := drop_selectText_early (t := b :: name) (v := v) hfrom
  rw [drop_take, Nat.add_sub_cancel_left, htext, cons_append] at h
  have hempty : trimSpace ([] : Str) = [] := rfl
  have hbare : trimSpace ([77] : Str) = [77] := rfl
  have hblank : trimSpace ([77, 32] : Str) = [77] := rfl
  match n, h with
  | 0, h => exact absurd (hempty.symm.trans h) (by simp)
  | 1, h => exact ⟨h.symm.trans hbare, .inl (by omega)⟩
  | 2, h => exact ⟨h.symm.trans hblank, .inr (by omega)⟩
  | n + 3, h =>
    exfalso
    obtain ⟨l, r, heq, hlr⟩ := hlaw.exists_trimSpace ((77 :: 32 :: b :: (name ++ 32 :: more)).take (n + 3))
    rw [h] at heq
    have hletter : (77 : UInt8) ∉ l ++ r := fun hmem => absurd (hlr 77 hmem (by decide)) (by decide)
    rw [mem_append, not_or] at hletter
    simp only [take_succ_cons] at heq
    -- nothing is cut off before the letter, and the blank after it is in no name
    cases l with
    | cons a l =>
      obtain ⟨rfl, -⟩ := List.cons.inj heq
      exact hletter.1 (.head _)
    | nil =>
      obtain ⟨rfl, heq⟩ := List.cons.inj heq
      cases name with
      | cons a name =>
        obtain ⟨rfl, -⟩ := List.cons.inj heq
        exact (hlaw.ne_of_mem ht (.tail _ (.head _))).2.2.1 rfl
      | nil =>
        have hr : 32 :: 77 :: (32 :: more).take n = r := heq
        exact hletter.2 (hr ▸ .tail _ (.head _))

end Lawful

/-! ### Projections that are read as they are written -/

section Lawful

variable (hlaw : LawfulTexts) (hcs : cs ≠ []) (hc : ∀ c ∈ cs, isValidIdentifier c = true)
  (ht : isValidIdentifier t = true) (hv : IsIdText v)

include hlaw hc ht

theorem ne_of_mem_beforeEquals {b : UInt8} (hb : b ∈ beforeEquals cs t) : b ≠ 58 ∧ b ≠ 61 := by
  have hlit : ∀ {w : Str}, (w.all fun b => b ≠ 58 ∧ b ≠ 61) = true → b ∈ w → b ≠ 58 ∧ b ≠ 61 := fun hw hmem =>
    of_decide_eq_true (all_eq_true.1 hw b hmem)
  have hname : ∀ {c : Str}, isValidIdentifier c = true → b ∈ c → b ≠ 58 ∧ b ≠ 61 := fun hc hmem =>
    ⟨(hlaw.ne_of_mem hc hmem).1, (hlaw.ne_of_mem hc hmem).2.2.2⟩
  have hcolumns : b ∈ columnList cs → b ≠ 58 ∧ b ≠ 61 := by
    intro hmem
    rcases mem_columnList hmem with rfl | rfl | ⟨c, hcmem, hmem⟩
    · decide
    · decide
    · exact hname (hc c hcmem) hmem
  simp only [beforeEquals, beforeWhere, beforeFrom, mem_append, mem_cons] at hb
  rcases hb with ((hb | hb | hb) | hb | rfl | hb | hb) | hb
  · exact hlit (by decide) hb
  · exact hcolumns hb
  · exact hlit (by decide) (mem_cons.2 hb)
  · exact hlit (by decide) hb
  · decide
  · exact hname ht hb
  · exact hlit (by decide) (mem_cons.2 hb)
  · exact hlit (by decide) hb

include hcs hv in
theorem keywordsInPlace_of_paths (hparse : parseQuery (selectText cs t v) = .ok q)
    (hpaths : q.cols.map q.path = cs.map fun c => t ++ str ":" ++ v ++ str ":" ++ c) :
    KeywordsInPlace cs t v := by
  obtain ⟨fromIdx, whereIdx, hfrom, hwhere, ⟨hseven, hle⟩, hequals, hcols, htable⟩ := cut_of_parseQuery hparse
  -- the sign comes after the second cut, so that the pieces are from the text before it
  have hbound : whereIdx + 5 ≤ (beforeEquals cs t).length := by
    by_contra hlt
    obtain ⟨m, hm⟩ := Nat.exists_eq_add_of_lt (not_le.1 hlt)
    rw [selectText_eq, hm, Nat.add_assoc, ← drop_drop, drop_left] at hequals
    have hmem : (61 : UInt8) ∈ 32 :: v := (drop_suffix m _).subset hequals
    rcases mem_cons.1 hmem with hsign | hsign
    · exact absurd hsign (by decide)
    · exact hv.1 61 hsign (by decide)
  have htake : ∀ n ≤ (beforeEquals cs t).length, (selectText cs t v).take n <:+: beforeEquals cs t := by
    intro n hn
    rw [selectText_eq, take_append_of_le_length hn]
    exact (List.take_prefix n _).isInfix
  have hcolon : ∀ {x : Str}, x <:+: beforeEquals cs t → 58 ∉ x := fun hx hmem =>
    (ne_of_mem_beforeEquals hlaw hc ht (hx.subset hmem)).1 rfl
  have hpieces : ∀ d ∈ q.cols, 58 ∉ d := by
    intro d hd
    rw [hcols] at hd
    obtain ⟨part, hpart, rfl⟩ := mem_map.1 hd
    have hwithin := (isInfix_of_mem_split hpart).trans (drop_suffix 7 _).isInfix
    exact hcolon ((hlaw.isInfix_trimSpace part).trans (hwithin.trans (htake fromIdx (by omega))))
  have htablePiece : 58 ∉ q.table := by
    rw [htable]
    have hwithin := (drop_suffix (fromIdx + 4) ((selectText cs t v).take whereIdx)).isInfix
    exact hcolon ((hlaw.isInfix_trimSpace _).trans (hwithin.trans (htake whereIdx (by omega))))
  obtain ⟨hcolsEq, htableEq⟩ := names_of_paths hcs hpieces htablePiece
    (fun c hmem hcolon => (hlaw.ne_of_mem (hc c hmem) hcolon).1 rfl)
    (fun hcolon => (hlaw.ne_of_mem ht hcolon).1 rfl) hpaths
  refine ⟨fromIdx, whereIdx, hfrom, hwhere, ?_⟩
  rcases place_of_columns hlaw hc hcs hseven (hcols.symm.trans hcolsEq) with rfl | hplace
  · exact .inl ⟨rfl, place_of_table hlaw ht hle (htable.symm.trans htableEq)⟩
  · obtain ⟨hname, hwhere⟩ := place_of_table_early hlaw ht hplace hle (htable.symm.trans htableEq)
    exact .inr ⟨hname, hplace, hwhere⟩

omit ht in
theorem map_trimSpace_split {r : Str} (hr : r = [] ∨ r = [32]) (hcs : cs ≠ []) : ∀ {l : Str}, (l = [] ∨ l = [32]) →
    (split 44 (l ++ (columnList cs ++ r))).map trimSpace = cs := by
  have hcomma : ∀ {x : Str}, (x = [] ∨ x = [32]) → 44 ∉ x := by
    rintro x (rfl | rfl) <;> decide
  have htrim : ∀ {l x : Str}, (l = [] ∨ l = [32]) → trimSpace (l ++ x) = trimSpace x := by
    rintro l x (rfl | rfl)
    · rfl
    · exact hlaw.trimSpace_cons x
  induction cs with
  | nil =>
    intro l
    exact absurd rfl hcs
  | cons c cs ih =>
    intro l hl
    have hname := hc c (.head _)
    have hnot : 44 ∉ c := fun hmem => (hlaw.ne_of_mem hname hmem).2.1 rfl
    cases cs with
    | nil =>
      have hword : 44 ∉ l ++ (c ++ r) := by
        simp only [mem_append, not_or]
        exact ⟨hcomma hl, hnot, hcomma hr⟩
      rw [columnList_singleton, split_of_not_mem hword, map_singleton, htrim hl, hlaw.trimSpace_name hname hr]
    | cons c' cs =>
      have hword : 44 ∉ l ++ c := by
        simp only [mem_append, not_or]
        exact ⟨hcomma hl, hnot⟩
      have hbare := hlaw.trimSpace_name hname (r := []) (.inl rfl)
      rw [append_nil] at hbare
      have htext : l ++ (columnList (c :: c' :: cs) ++ r) =
          (l ++ c) ++ 44 :: ([32] ++ (columnList (c' :: cs) ++ r)) := by
        rw [columnList_cons]
        simp only [append_assoc, cons_append, nil_append]
      rw [htext, split_append hword, map_cons, htrim hl, hbare,
        ih (forall_mem_cons.1 hc).2 (cons_ne_nil _ _) (.inr rfl)]

include hv in
theorem cutQuery_of_pieces {fromIdx whereIdx : ℕ}
    (hcols : (split 44 (((selectText cs t v).take fromIdx).drop 7)).map trimSpace = cs)
    (htable : trimSpace (((selectText cs t v).take whereIdx).drop (fromIdx + 4)) = t)
    (hwhere : whereIdx + 5 ≤ (beforeEquals cs t).length) :
    cutQuery (selectText cs t v) fromIdx whereIdx = .ok ⟨cs, t, v⟩ := by
  have hrest : (selectText cs t v).drop (whereIdx + 5) =
      (beforeEquals cs t).drop (whereIdx + 5) ++ ([61] ++ 32 :: v) := by
    rw [selectText_eq, drop_append_of_le_length hwhere]
    rfl
  have hnone : ¬ [61] <:+: (beforeEquals cs t).drop (whereIdx + 5) ++ [61].dropLast := by
    intro hin
    have hmem : (61 : UInt8) ∈ (beforeEquals cs t).drop (whereIdx + 5) := by
      simpa using hin.subset (.head _)
    exact (ne_of_mem_beforeEquals hlaw hc ht ((drop_suffix _ _).subset hmem)).2 rfl
  have hindex : indexOf (str "=") ((beforeEquals cs t).drop (whereIdx + 5) ++ ([61] ++ 32 :: v)) =
      some ((beforeEquals cs t).drop (whereIdx + 5)).length := indexOf_append hnone _
  have hid : ((beforeEquals cs t).drop (whereIdx + 5) ++ ([61] ++ 32 :: v)).drop
      (((beforeEquals cs t).drop (whereIdx + 5)).length + 1) = 32 :: v := by
    rw [← drop_drop, drop_left]
    rfl
  rw [cutQuery, hrest, hindex]
  dsimp only
  rw [hcols, htable, hid, hv.trimmed hlaw]

theorem toUpper_selectText (v : Str) : toUpper (selectText cs t v) =
    beforeWhere (cs.map toUpper) (toUpper t) ++ (str "WHERE" ++ (str " ID = " ++ toUpper v)) := by
  have hcolumns : ∀ {cs : List Str}, (∀ c ∈ cs, isValidIdentifier c = true) → ∀ rest : Str,
      toUpper (columnList cs ++ rest) = columnList (cs.map toUpper) ++ toUpper rest := by
    intro cs
    induction cs with
    | nil => exact fun _ _ => rfl
    | cons c cs ih =>
      intro hc rest
      cases cs with
      | nil =>
        rw [columnList_singleton, map_singleton, columnList_singleton]
        exact hlaw.upperName c rest (hc c (.head _))
      | cons c' cs =>
        have htext : columnList (c :: c' :: cs) ++ rest = c ++ ([44, 32] ++ (columnList (c' :: cs) ++ rest)) := by
          rw [columnList_cons]
          simp only [append_assoc, cons_append, nil_append]
        rw [htext, hlaw.upperName c _ (hc c (.head _)), hlaw.toUpper_append (by decide),
          ih (forall_mem_cons.1 hc).2]
        simp only [map_cons, columnList_cons, append_assoc, cons_append]
        rfl
  unfold selectText
  simp only [append_assoc]
  rw [hlaw.toUpper_append (by decide), hcolumns hc, hlaw.toUpper_append (by decide), hlaw.upperName t _ ht,
    hlaw.toUpper_append (by decide), beforeWhere, beforeFrom]
  have hselect : (str "SELECT ").map upperByte = str "SELECT " := by decide
  have hfrom : (str " FROM ").map upperByte = [32] ++ (str "FROM" ++ [32]) := by decide
  have hwhere : (str " WHERE id = ").map upperByte = [32] ++ (str "WHERE" ++ str " ID = ") := by decide
  rw [hselect, hfrom, hwhere]
  simp only [append_assoc, cons_append, nil_append]

include hcs hv in
theorem parseQuery_of_keywordsInPlace (h : KeywordsInPlace cs t v) :
    parseQuery (selectText cs t v) = .ok ⟨cs, t, v⟩ := by
  obtain ⟨fromIdx, whereIdx, hfrom, hwhere, hplace⟩ := h
  have hselect : hasPrefix (toUpper (selectText cs t v)) (str "SELECT") = true := by
    rw [toUpper_selectText hlaw hc ht, beforeWhere, beforeFrom]
    simp only [append_assoc]
    exact isPrefixOf_iff_prefix.2 (prefix_append (str "SELECT") _)
  have htotal : (selectText cs t v).length = (beforeEquals cs t).length + v.length + 2 := by
    rw [selectText_eq, length_append, length_cons, length_cons]
    omega
  have hlengths := length_beforeFrom cs
  have hlengths' := length_beforeWhere cs t
  have hlengths'' := length_beforeEquals cs t
  have hcolumns : ∀ {r : Str}, r = [] ∨ r = [32] → fromIdx = 7 + (columnList cs ++ r).length →
      (columnList cs ++ r) <+: (selectText cs t v).drop 7 →
      (split 44 (((selectText cs t v).take fromIdx).drop 7)).map trimSpace = cs := by
    intro r hr hidx hpre
    rw [hidx, drop_take, Nat.add_sub_cancel_left, ← prefix_iff_eq_take.1 hpre]
    exact map_trimSpace_split hlaw hc hr hcs (.inl rfl)
  have hafter : (selectText cs t v).drop 7 = columnList cs ++ ([32] ++ (str "FROM" ++
      (32 :: (t ++ [32])) ++ str "WHERE id " ++ 61 :: 32 :: v)) := by
    rw [selectText_eq, beforeEquals, beforeWhere, beforeFrom]
    simp only [append_assoc]
    exact drop_left' rfl
  rw [parseQuery_of_index hselect hfrom hwhere]
  rcases hplace with ⟨rfl, hplace⟩ | ⟨rfl, hearly, hplace⟩
  · rw [if_pos ⟨by omega, by omega, by omega⟩]
    refine cutQuery_of_pieces hlaw hc ht hv ?_ ?_ (by omega)
    · refine hcolumns (.inr rfl) ?_ ?_
      · rw [length_append, length_singleton]
        omega
      · rw [hafter, ← append_assoc]
        exact prefix_append _ _
    · obtain ⟨more, htext⟩ := drop_selectText_table cs t v
      obtain ⟨n, rfl⟩ := Nat.exists_eq_add_of_le (show (beforeFrom cs).length + 4 ≤ whereIdx by omega)
      rw [drop_take, Nat.add_sub_cancel_left, htext]
      rcases hplace with hplace | hplace
      · have hn : n = (t ++ [32]).length + 1 := by
          rw [length_append, length_singleton]
          omega
        have htake : (t ++ 32 :: 87 :: more).take (t ++ [32]).length = t ++ [32] := by
          rw [← prefix_iff_eq_take.1]
          exact ⟨87 :: more, by simp⟩
        rw [hn, take_succ_cons, htake, hlaw.trimSpace_cons, hlaw.trimSpace_name ht (.inr rfl)]
      · have hn : n = t.length + 1 := by omega
        have hbare := hlaw.trimSpace_name ht (r := []) (.inl rfl)
        rw [append_nil] at hbare
        rw [hn, take_succ_cons, take_left, hlaw.trimSpace_cons, hbare]
  · have hone : (str "M").length = 1 := rfl
    rw [if_pos ⟨by omega, by omega, by omega⟩]
    refine cutQuery_of_pieces hlaw hc ht hv ?_ ?_ (by omega)
    · refine hcolumns (.inl rfl) ?_ ?_
      · rw [append_nil]
        omega
      · rw [hafter, append_nil]
        exact prefix_append _ _
    · obtain ⟨more, htext⟩ := drop_selectText_early (t := str "M") (v := v) hearly
      rcases hplace with rfl | rfl
      · rw [drop_take, Nat.add_sub_add_left, htext]
        rfl
      · rw [drop_take, Nat.add_sub_add_left, htext]
        rfl

end Lawful

/-! ### Names whose length does not change -/

/-- The name in upper case has the keyword in it. -/
def hasKeyword (keyword s : Str) : Prop := keyword <:+: toUpper s

/-- If no name changes its length in upper case, the keywords are in place exactly if there is no `FROM` and no
`WHERE` in the columns, and no `WHERE` in the table. -/
theorem keywordsInPlace_iff (hlaw : LawfulTexts) (hc : ∀ c ∈ cs, isValidIdentifier c = true)
    (ht : isValidIdentifier t = true) (hlength : ∀ c ∈ t :: cs, (toUpper c).length = c.length) (v : Str) :
    KeywordsInPlace cs t v ↔ (∀ c ∈ cs, ¬ hasKeyword (str "FROM") c ∧ ¬ hasKeyword (str "WHERE") c) ∧
      ¬ hasKeyword (str "WHERE") t := by
  have hfromLength : (beforeFrom (cs.map toUpper)).length = (beforeFrom cs).length := by
    rw [length_beforeFrom, length_beforeFrom, length_columnList_map (forall_mem_cons.1 hlength).2]
  have hwhereLength : (beforeWhere (cs.map toUpper) (toUpper t)).length = (beforeWhere cs t).length := by
    rw [length_beforeWhere, length_beforeWhere, hfromLength, hlength t (.head _)]
  unfold KeywordsInPlace
  rw [toUpper_selectText hlaw hc ht]
  constructor
  · rintro ⟨fromIdx, whereIdx, hfrom, hwhere, hplace⟩
    have htext : beforeWhere (cs.map toUpper) (toUpper t) ++ (str "WHERE" ++ (str " ID = " ++ toUpper v)) =
        (beforeFrom (cs.map toUpper) ++ (str "FROM" ++ 32 :: toUpper t)) ++
          (32 :: (str "WHERE" ++ (str " ID = " ++ toUpper v))) := by
      rw [beforeWhere]
      simp only [append_assoc, cons_append, nil_append]
    have hlast : (beforeFrom (cs.map toUpper) ++ (str "FROM" ++ 32 :: toUpper t)).length + 1 =
        (beforeWhere cs t).length := by
      rw [← hwhereLength, length_beforeWhere, length_append, length_append, length_cons]
      have hfour : (str "FROM").length = 4 := rfl
      omega
    rw [htext] at hfrom hwhere
    rcases hplace with ⟨rfl, hplace⟩ | ⟨-, hearly, -⟩
    · have hnoFrom := not_isInfix_take_of_indexOf (by decide) hfrom
      have hnoWhere := not_isInfix_take_of_indexOf (by decide) hwhere
      rw [← hfromLength, append_assoc, take_left] at hnoFrom
      have hbefore : beforeFrom (cs.map toUpper) ++ (str "FROM" ++ 32 :: toUpper t) <+: take whereIdx
          ((beforeFrom (cs.map toUpper) ++ (str "FROM" ++ 32 :: toUpper t)) ++
            (32 :: (str "WHERE" ++ (str " ID = " ++ toUpper v)))) := by
        refine prefix_of_prefix_length_le (prefix_append _ _) (List.take_prefix _ _) ?_
        rw [length_take, le_min_iff]
        exact ⟨by omega, (prefix_append _ _).length_le⟩
      have hcolumn : ∀ {k c : Str}, k ≠ [] → 44 ∉ k → 32 ∉ k → c ∈ cs → hasKeyword k c →
          ∀ w, k <:+: beforeFrom (cs.map toUpper) ++ w := fun hk hcomma hblank hmem hin w =>
        (isInfix_beforeFrom hk hcomma hblank _ w).2 (.inr (.inl ⟨_, mem_map_of_mem hmem, hin⟩))
      refine ⟨fun c hmem => ⟨fun hin => hnoFrom ?_, fun hin => hnoWhere ?_⟩, fun hin => hnoWhere ?_⟩
      · have hfound := hcolumn (by decide) (by decide) (by decide) hmem hin []
        rwa [append_nil] at hfound
      · exact (hcolumn (by decide) (by decide) (by decide) hmem hin _).trans hbefore.isInfix
      · have hfound : str "WHERE" <:+: beforeFrom (cs.map toUpper) ++ (str "FROM" ++ 32 :: toUpper t) :=
          (isInfix_beforeFrom (by decide) (by decide) (by decide) _ _).2
            (.inr (.inr ((isInfix_append_cons (by decide)).2 (.inr hin))))
        exact hfound.trans hbefore.isInfix
    · -- there is a blank at this place
      exfalso
      have hpre := isPrefix_drop_of_indexOf hfrom
      have hidx : fromIdx = (str "SELECT " ++ columnList (cs.map toUpper)).length := by
        rw [← hfromLength, length_beforeFrom] at hearly
        rw [length_append]
        have hseven : (str "SELECT ").length = 7 := rfl
        omega
      have hblank : (beforeFrom (cs.map toUpper) ++ (str "FROM" ++ 32 :: toUpper t)) ++
          (32 :: (str "WHERE" ++ (str " ID = " ++ toUpper v))) = (str "SELECT " ++ columnList (cs.map toUpper)) ++
            (32 :: ((str "FROM" ++ 32 :: toUpper t) ++ (32 :: (str "WHERE" ++ (str " ID = " ++ toUpper v))))) := by
        rw [beforeFrom]
        simp only [append_assoc, cons_append, nil_append]
      rw [hblank, hidx, drop_left] at hpre
      exact absurd (List.cons_prefix_cons.1 hpre).1 (by decide)
  · rintro ⟨hcols, htable⟩
    obtain ⟨hfrom, hwhere⟩ := indexOf_beforeWhere (cs.map toUpper) (toUpper t)
      (str " ID = " ++ toUpper v) (forall_mem_map.2 hcols) htable
    exact ⟨_, _, hfrom, hwhere, .inl ⟨hfromLength, .inl hwhereLength⟩⟩

/-- **A projection is read as it is written** exactly if its keywords are found where they are. As long as no name
changes its length in upper case, this depends on the keywords in the names only. -/
theorem projection_iff (ι : Type) [Nontrivial H] (hlaw : LawfulTexts) (hcs : cs ≠ [])
    (hc : ∀ c ∈ cs, isValidIdentifier c = true) (ht : isValidIdentifier t = true) (hv : IsIdText v) :
    (DependsOn ι H (selectText cs t v) (cs.map fun c => t ++ str ":" ++ v ++ str ":" ++ c) ↔
        KeywordsInPlace cs t v) ∧
      ((∀ c ∈ t :: cs, (toUpper c).length = c.length) → (KeywordsInPlace cs t v ↔
        (∀ c ∈ cs, ¬ hasKeyword (str "FROM") c ∧ ¬ hasKeyword (str "WHERE") c) ∧
          ¬ hasKeyword (str "WHERE") t)) := by
  refine ⟨⟨fun h => ?_, fun h => ?_⟩, fun hlength => keywordsInPlace_iff hlaw hc ht hlength v⟩
  · obtain ⟨q, hparse, hpaths⟩ := paths_of_dependsOn h
    exact keywordsInPlace_of_paths hlaw hcs hc ht hv hparse hpaths
  · exact dependsOn_of_parseQuery ι (parseQuery_of_keywordsInPlace hlaw hcs hc ht hv h) hcs

end Parsing

/-! ### Instances -/

abbrev caselessUnicode : Unicode := ⟨List.map upperByte, id⟩

abbrev narrowSpaces : Spaces := ⟨fun s => s.dropWhile isSpace⟩

abbrev plainRunes : RuneClasses := ⟨fun _ => false⟩

attribute [local instance] caselessUnicode narrowSpaces plainRunes

theorem where_before_from_panics : (sqlToProofTree (str "SELECT a WHERE id = 1 FROM t") :
    StoreProg Unit Str _).eval (⟨fun _ => none, fun _ => none⟩ : View Unit Str).answer = .error .panic :=
  eval_sqlToProofTree_error rfl

local instance nontrivialTexts : Nontrivial Str := ⟨[], [0], by decide⟩

theorem not_dependsOn_fromage : ¬ DependsOn Unit Str
    (selectText [str "fromage"] (str "t") (str "1")) [str "t:1:fromage"] := by
  intro h
  obtain ⟨q, hparse, hpaths⟩ := paths_of_dependsOn h
  have hcut : parseQuery (selectText [str "fromage"] (str "t") (str "1")) =
      .ok ⟨[[]], str "age FROM t", str "1"⟩ := rfl
  obtain rfl := Except.ok.inj (hcut.symm.trans hparse)
  exact absurd hpaths (by decide)

theorem lawfulTexts_plain : LawfulTexts where
  upper _ _ _ _ := map_append
  upperName c t _ := by
    have hupper : ∀ s : Str, toUpper s = s.map upperByte := fun s => ite_self _
    rw [hupper, hupper, hupper, map_append]
  space _ _ := rfl
  trims s _ := by
    refine ⟨s.takeWhile isSpace, [], ?_, fun b hb _ => ?_⟩
    · rw [append_nil]
      exact (takeWhile_append_dropWhile ..).symm
    · rw [append_nil] at hb
      exact mem_takeWhile_imp hb
  name c hascii hc := by
    have hnone : isValidIdentifier c = false := by
      unfold isValidIdentifier
      rw [hascii, if_neg Bool.false_ne_true]
      exact ite_self _
    rw [hnone] at hc
    cases hc

theorem projection_iff_users : DependsOn Unit Str (selectText [str "name", str "email"] (str "users") (str "123"))
      [str "users:123:name", str "users:123:email"] ↔
    KeywordsInPlace [str "name", str "email"] (str "users") (str "123") :=
  (projection_iff Unit lawfulTexts_plain (by decide) (by decide +kernel) (by decide +kernel)
    ⟨by decide +kernel, rfl⟩).1

end Wavicle.Engine
