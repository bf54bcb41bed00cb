import Wavicle.Engine.Reads
import Wavicle.Lib.Strconv

/-! # Reducing an expression, and SQL queries

`ReduceProofTree` of `engine/compose.go` evaluates an expression against a store, with a table of the
values of subexpressions; `SQLToProofTree` of `engine/sqlparser.go` makes a composite of the atoms
that a `SELECT` asks for. -/

namespace Wavicle.Engine

open Lib Wavicle.Core Storage Prog

variable {ι H : Type} [Inhabited ι] [DecidableEq H] [Hashing H]

abbrev NodeCache (ι H : Type) := GoMap H (Value ι)

abbrev Evaluated (α ι H : Type) := Except Fault α × NodeCache ι H

/-- `fmt.Errorf("unknown expr type: %T", expr)` -/
def unknownExpr (e : Expr ι H) : Fault :=
  .error (str "unknown expr type: " ++ match e with
    | .eEmbed _ _ => str "*core.EEmbed"
    | _ => str "*core.EResonate")

def hex (h : H) : Str :=
  (Hashing.bytes h).flatMap fun b => [hexDigit (b.toNat / 16), hexDigit (b.toNat % 16)]

/-- The atom that stands for a hash in a composite: the current one of the path that the hash leads
to, if the path has one. -/
def resolveAtom (h : H) : StoreProg ι H (Option (CausalAtom ι H)) := do
  match ← ask (⟨.given, .getAtom h⟩ : StoreCall ι H) with
  | some atom =>
    if atom.path ≠ [] then do
      match ← ask (⟨.given, .getCurrent atom.path⟩ : StoreCall ι H) with
      | some current => pure (some current)
      | none => pure (some atom)
    else ask (⟨.given, .getAtom h⟩ : StoreCall ι H)
  | none => ask (⟨.given, .getAtom h⟩ : StoreCall ι H)

/-- The loop of `reduceTree` over the atoms of a composite: the entries of the record. -/
def reduceAtoms (reduce : Expr ι H → NodeCache ι H → StoreProg ι H (Evaluated (Value ι) ι H)) :
    List H → NodeCache ι H → StoreProg ι H (Evaluated (List (Str × Value ι)) ι H)
  | [], cache => pure (.ok [], cache)
  | h :: hs, cache => do
    match ← resolveAtom h with
    | none => pure (.error (.error (str "atom not found: " ++ hex h)), cache)
    | some atom => do
      let (r, cache) ← reduce atom.expr cache
      match r with
      | .error f => pure (.error f, cache)
      | .ok v => do
        let (rs, cache) ← reduceAtoms reduce hs cache
        pure (rs.map ((atom.path, v) :: ·), cache)

/-- `reduceTree`, for recursions of depth `fuel` -/
def reduceTree : ℕ → Expr ι H → NodeCache ι H → StoreProg ι H (Evaluated (Value ι) ι H)
  | 0, _, cache => pure (.error .fuel, cache)
  | fuel + 1, e, cache =>
    match cache.lookup e.exprHash with
    | some v => pure (.ok v, cache)
    | none => do
      let (r, cache) ← match e with
        | .eConst v => pure (.ok v, cache)
        | .eFieldAccess field source => do
          let (r, cache) ← reduceTree fuel source cache
          pure (r.map (extractField field), cache)
        | .eCompose atoms => do
          let (r, cache) ← reduceAtoms (reduceTree fuel) atoms cache
          pure (r.map newRecord, cache)
        | .eApply func arg => do
          let (f, cache) ← reduceTree fuel func cache
          match f with
          | .error fault => pure (.error fault, cache)
          | .ok f => do
            let (a, cache) ← reduceTree fuel arg cache
            pure (a >>= applyCombinator fuel f, cache)
        | e => pure (.error (unknownExpr e), cache)
      match r with
      | .ok v => pure (.ok v, cache.insert e.exprHash v)
      | .error f => pure (.error f, cache)

/-- `ReduceProofTree`, without the table that nobody reads -/
def reduceProofTree (fuel : ℕ) (e : Expr ι H) : StoreProg ι H (Except Fault (Value ι)) := do
  let (r, _) ← reduceTree fuel e ∅
  pure r

/-! ### Queries -/

/-- `SELECT cols FROM table WHERE id = id`. -/
structure Query where
  cols : List Str
  table : Str
  id : Str

/-- The text part of `SQLToProofTree`. The positions are found in the query in upper case and used in
the query itself; a slice whose bounds are not in order is a panic. -/
def parseQuery [Unicode] [Spaces] (query : Str) : Except Fault Query :=
  let q := toUpper query
  if !hasPrefix q (str "SELECT") then
    .error (.error (str "unsupported SQL query: only SELECT is supported"))
  else
    match indexOf (str "FROM") q, indexOf (str "WHERE") q with
    | some fromIdx, some whereIdx =>
      match slice query 7 fromIdx, slice query (fromIdx + 4) whereIdx,
        slice query (whereIdx + 5) query.length with
      | some colsPart, some tablePart, some wherePart =>
        match indexOf (str "=") wherePart with
        | none => .error (.error (str "malformed SQL: only id = val is supported"))
        | some eqIdx =>
          .ok ⟨(split 44 colsPart).map trimSpace, trimSpace tablePart,
            trim (trimSpace (wherePart.drop (eqIdx + 1))) (str "'\"")⟩
      | _, _, _ => .error .panic
    | _, _ => .error (.error (str "malformed SQL: missing FROM or WHERE"))

/-- `fmt.Sprintf("sql:%s:%s", tablePart, id)` -/
def Query.primaryPath (q : Query) : Str := str "sql:" ++ q.table ++ str ":" ++ q.id

/-- `fmt.Sprintf("%s:%s:%s", tablePart, id, col)` -/
def Query.path (q : Query) (col : Str) : Str := q.table ++ str ":" ++ q.id ++ str ":" ++ col

/-- The hashes of the current atoms of the columns, up to the first one that has none. -/
def queryAtoms (q : Query) : List Str → StoreProg ι H (Except Fault (List H))
  | [] => pure (.ok [])
  | col :: cols => do
    match ← ask (⟨.given, .getCurrent (q.path col)⟩ : StoreCall ι H) with
    | none => pure (.error (.error (str "dependency not found: " ++ q.path col)))
    | some atom => do
      let r ← queryAtoms q cols
      pure (r.map (atom.hash :: ·))

/-- `SQLToProofTree`, up to the interning of the composite: its atoms, and the primary path -/
def sqlToProofTree [Unicode] [Spaces] (query : Str) :
    StoreProg ι H (Except Fault (List H × Str)) := do
  match parseQuery query with
  | .error f => pure (.error f)
  | .ok q =>
    match ← queryAtoms q q.cols with
    | .error f => pure (.error f)
    | .ok [] => pure (.error (.error (str "no data found for query dependencies")))
    | .ok atoms => pure (.ok (atoms, q.primaryPath))

/-! ### Reading -/

omit [Inhabited ι] [DecidableEq H] [Hashing H] in
theorem reads_resolveAtom (h : H) : Reads (resolveAtom h : StoreProg ι H _) := by
  refine callsOnly_bind (fun atom => ?_) (callsOnly_ask trivial)
  cases atom with
  | none => exact callsOnly_ask trivial
  | some atom =>
    dsimp only
    split_ifs
    · refine callsOnly_bind (fun current => ?_) (callsOnly_ask trivial)
      cases current <;> exact callsOnly_pure _ _
    · exact callsOnly_ask trivial

omit [Inhabited ι] [DecidableEq H] in
theorem reads_reduceAtoms
    {reduce : Expr ι H → NodeCache ι H → StoreProg ι H (Evaluated (Value ι) ι H)}
    (h : ∀ e cache, Reads (reduce e cache)) : ∀ (hs : List H) (cache : NodeCache ι H),
    Reads (reduceAtoms reduce hs cache)
  | [], _ => callsOnly_pure _ _
  | hash :: hs, cache => by
    refine callsOnly_bind (fun atom => ?_) (reads_resolveAtom hash)
    cases atom with
    | none => exact callsOnly_pure _ _
    | some atom =>
      refine callsOnly_bind (fun r => ?_) (h atom.expr cache)
      obtain ⟨r, cache⟩ := r
      cases r with
      | error f => exact callsOnly_pure _ _
      | ok v =>
        exact callsOnly_bind (fun _ => callsOnly_pure _ _) (reads_reduceAtoms h hs cache)

theorem reads_reduceTree : ∀ (fuel : ℕ) (e : Expr ι H) (cache : NodeCache ι H),
    Reads (reduceTree fuel e cache)
  | 0, _, _ => callsOnly_pure _ _
  | fuel + 1, e, cache => by
    unfold reduceTree
    cases cache.lookup e.exprHash with
    | some v => exact callsOnly_pure _ _
    | none =>
      cases e with
      | eFieldAccess field source =>
        refine callsOnly_bind (fun r => ?_) (reads_reduceTree fuel source cache)
        obtain ⟨r, cache⟩ := r
        cases r <;> exact callsOnly_pure _ _
      | eCompose atoms =>
        refine callsOnly_bind (fun r => ?_)
          (reads_reduceAtoms (reads_reduceTree fuel) atoms cache)
        obtain ⟨r, cache⟩ := r
        cases r <;> exact callsOnly_pure _ _
      | eApply func arg =>
        refine callsOnly_bind (fun f => ?_) (reads_reduceTree fuel func cache)
        obtain ⟨f, cache⟩ := f
        cases f with
        | error fault => exact callsOnly_pure _ _
        | ok f =>
          refine callsOnly_bind (fun a => ?_) (reads_reduceTree fuel arg cache)
          obtain ⟨a, cache⟩ := a
          dsimp only
          cases a >>= applyCombinator fuel f <;> exact callsOnly_pure _ _
      | _ => exact callsOnly_pure _ _

theorem reads_reduceProofTree (fuel : ℕ) (e : Expr ι H) : Reads (reduceProofTree fuel e) :=
  callsOnly_bind (fun _ => callsOnly_pure _ _) (reads_reduceTree fuel e ∅)

omit [Inhabited ι] [DecidableEq H] [Hashing H] in
theorem reads_queryAtoms (q : Query) : ∀ cols : List Str,
    Reads (queryAtoms q cols : StoreProg ι H _)
  | [] => callsOnly_pure _ _
  | col :: cols => by
    refine callsOnly_bind (fun atom => ?_) (callsOnly_ask trivial)
    cases atom with
    | none => exact callsOnly_pure _ _
    | some atom =>
      exact callsOnly_bind (fun _ => callsOnly_pure _ _) (reads_queryAtoms q cols)

omit [Inhabited ι] [DecidableEq H] [Hashing H] in
theorem reads_sqlToProofTree [Unicode] [Spaces] (query : Str) :
    Reads (sqlToProofTree query : StoreProg ι H _) := by
  unfold sqlToProofTree
  cases parseQuery query with
  | error f => exact callsOnly_pure _ _
  | ok q =>
    refine callsOnly_bind (fun r => ?_) (reads_queryAtoms q q.cols)
    rcases r with f | (_ | ⟨_, _⟩) <;> exact callsOnly_pure _ _

end Wavicle.Engine
