import Wavicle.Engine.Proof

/-! # Incremental reduction

`engine/incremental.go`. `ReduceIncremental` returns the value of a cached proof if its version vector still
matches; otherwise the nodes of the changed paths and their ancestors are marked and reduced again. -/

namespace Wavicle.Engine

open Lib Wavicle.Core Storage

variable {ι H : Type} [Inhabited ι]

def newRecord (fields : List (Str × Value ι)) : Value ι :=
  .vRecord default (fields.foldl (fun m f => SortedMap.put f.1 f.2 m) [])

def extractField (field : Str) : Value ι → Value ι
  | .vRecord _ fields => (fields.lookup field).getD .vNull
  | _ => .vNull

/-- `v[key]` of a combinator record that is handed on as a value. -/
def argument (fields : List (Str × Value ι)) (key : Str) : Except Fault (Value ι) :=
  match fields.lookup key with
  | some v => .ok v
  | none => .error .nilValue

/-- `applyCombinator`, for recursions of depth `fuel` -/
def applyCombinator : ℕ → Value ι → Value ι → Except Fault (Value ι)
  | 0, _, _ => .error .fuel
  | fuel + 1, f, a =>
    match f with
    | .vString s =>
      if s = str "I" then .ok a
      else if s = str "K" then .ok (newRecord [(str "fn", .vString (str "K_partial")), (str "arg1", a)])
      else if s = str "S" then
        .ok (newRecord [(str "fn", .vString (str "S_partial1")), (str "arg1", a)])
      else .ok (newRecord [(str "fn", f), (str "arg", a)])
    | .vRecord _ fields =>
      match fields.lookup (str "fn") with
      | some (.vString fn) =>
        if fn = str "K_partial" then argument fields (str "arg1")
        else if fn = str "S_partial1" then do
          let a₁ ← argument fields (str "arg1")
          .ok (newRecord [(str "fn", .vString (str "S_partial2")), (str "arg1", a₁), (str "arg2", a)])
        else if fn = str "S_partial2" then do
          let x ← argument fields (str "arg1")
          let y ← argument fields (str "arg2")
          let xc ← applyCombinator fuel x a
          let yc ← applyCombinator fuel y a
          applyCombinator fuel xc yc
        else .ok (newRecord [(str "fn", f), (str "arg", a)])
      | _ => .ok (newRecord [(str "fn", f), (str "arg", a)])
    | _ => .ok (newRecord [(str "fn", f), (str "arg", a)])

/-- The value or fault of a reduction, the node as the reduction leaves it, and the statistics. -/
abbrev Reduced (ι H : Type) := Except Fault (Value ι) × ProofNode ι H × ReduceStats

/-- The `%T` of an expression that `reduceDirty` does not handle. -/
def unsupported (e : Expr ι H) : Fault :=
  .error (str "unsupported or incomplete expr type for incremental: " ++ match e with
    | .eEmbed _ _ => str "*core.EEmbed"
    | _ => str "*core.EResonate")

def refresh (info : NodeInfo ι H) : StoreProg ι H (NodeInfo ι H) :=
  if info.sourcePath ≠ [] ∧ info.dirty then do
    match ← Prog.ask (⟨.inner, .getCurrent info.sourcePath⟩ : StoreCall ι H) with
    | some atom => pure { info with expr := atom.expr, sourceHash := atom.hash }
    | none => pure info
  else pure info

/-- The end of a reduction: the node caches its value and is clean. -/
def settle (info : NodeInfo ι H) (children : List (ProofNode ι H)) (stats : ReduceStats) :
    Except Fault (Value ι) → Reduced ι H
  | .ok v => (.ok v, .node { info with cachedValue := some v, dirty := false } children, stats)
  | .error f => (.error f, .node info children, stats)

/-- `EFieldAccess` on the reduced children, of which it takes the first. -/
def fieldOf (field : Str) : List (Str × Value ι) → Except Fault (Value ι)
  | (_, v) :: _ => .ok (extractField field v)
  | [] => .error (.error (str "EFieldAccess missing children in ProofNode"))

/-- `EApply` on the reduced children, of which it takes the first two. -/
def applyOf (fuel : ℕ) : List (Str × Value ι) → Except Fault (Value ι)
  | (_, f) :: (_, a) :: _ => applyCombinator fuel f a
  | _ => .error (.error (str "EApply missing children in ProofNode"))

/-- How many children an expression has reduced: a composite all, a field access the first, an
application the first two if there are as many. -/
def arity (e : Expr ι H) (children : ℕ) : ℕ :=
  match e with
  | .eCompose _ => children
  | .eFieldAccess _ _ => 1
  | .eApply _ _ => if 2 ≤ children then 2 else 0
  | _ => 0

omit [Inhabited ι] in
@[simp] theorem arity_eConst (v : Value ι) (n : ℕ) : arity (.eConst v : Expr ι H) n = 0 := rfl

omit [Inhabited ι] in
@[simp] theorem arity_eCompose (hs : List H) (n : ℕ) : arity (.eCompose hs : Expr ι H) n = n := rfl

/-- The value of an expression, given the entries of its reduced children. -/
def combine (fuel : ℕ) (e : Expr ι H) (fields : List (Str × Value ι)) : Except Fault (Value ι) :=
  match e with
  | .eConst v => .ok v
  | .eCompose _ => .ok (newRecord fields)
  | .eFieldAccess field _ => fieldOf field fields
  | .eApply _ _ => applyOf fuel fields
  | e => .error (unsupported e)

def reduceDirty (fuel : ℕ) : ProofNode ι H → ReduceStats → StoreProg ι H (Reduced ι H)
  | .node info children, stats =>
    match info.dirty, info.cachedValue with
    | false, some v =>
      pure (.ok v, .node info children, { stats with cacheHits := stats.cacheHits + 1 })
    | _, _ => do
      let info ← refresh info
      let (r, children, stats) ← reduceChildren (arity info.expr children.length) children
        { stats with cacheMisses := stats.cacheMisses + 1 }
      pure (settle info children stats (r >>= combine fuel info.expr))
where
  /-- The first `k` children are reduced, up to the first error: their entries in a record. -/
  reduceChildren : ℕ → List (ProofNode ι H) → ReduceStats →
      StoreProg ι H (Except Fault (List (Str × Value ι)) × List (ProofNode ι H) × ReduceStats)
    | _, [], stats => pure (.ok [], [], stats)
    | 0, c :: cs, stats => pure (.ok [], c :: cs, stats)
    | k + 1, c :: cs, stats => do
      let (r, c, stats) ← reduceDirty fuel c stats
      match r with
      | .error f => pure (.error f, c :: cs, stats)
      | .ok v => do
        let (rs, cs, stats) ← reduceChildren k cs stats
        pure (rs.map ((c.label.sourcePath, v) :: ·), c :: cs, stats)

/-- `fmt.Errorf("incremental reduction: %w", err)`; a panic is no error and passes through. -/
def Fault.wrap (context : Str) : Fault → Fault
  | .error msg => .error (context ++ msg)
  | f => f

def updateVector : List Str → VersionVector H → StoreProg ι H (VersionVector H)
  | [], vv => pure vv
  | path :: paths, vv => do
    match ← Prog.ask (⟨.inner, .getCurrentHash path⟩ : StoreCall ι H) with
    | some h => updateVector paths (vv.insert path h)
    | none => updateVector paths vv

/-- The incremental path of `ReduceIncremental`. -/
def reduceChanged (fuel : ℕ) (proof : MaterializedProof ι H) :
    StoreProg ι H (Except Fault (Value ι) × MaterializedProof ι H) := do
  let changed ← Prog.ask (⟨.inner, .findChangedPaths proof.versionVector⟩ : StoreCall ι H)
  let root := proof.rootNode.resetDirty.propagateChanges proof.pathToNode changed
  let (r, root, stats) ← reduceDirty fuel root ⟨changed.length, 0, 0⟩
  match r with
  | .error f =>
    pure (.error (f.wrap (str "incremental reduction: ")),
      { proof with rootNode := root, reduceStats := stats })
  | .ok v => do
    let vv ← updateVector changed proof.versionVector
    pure (.ok v,
      { proof with value := v, rootNode := root, versionVector := vv, reduceStats := stats })

/-- `ReduceIncremental`: the value or fault, and the proof as it is left in the cache. -/
def reduceIncremental (fuel : ℕ) (proof : MaterializedProof ι H) :
    StoreProg ι H (Except Fault (Value ι) × MaterializedProof ι H) := do
  match ← Prog.ask (⟨.inner, .verifyVersionVector proof.versionVector⟩ : StoreCall ι H) with
  | true => pure (.ok proof.value, { proof with reduceStats := ⟨0, 0, 0⟩ })
  | false => reduceChanged fuel proof

end Wavicle.Engine
