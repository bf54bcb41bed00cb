import Wavicle.Engine.Incremental

/-! # Composing a proof

`engine/compose.go`: the tree of proof nodes is built from the current atom of a path, following the
hashes of composites, then the version vector is captured and the tree is reduced once. -/

namespace Wavicle.Engine

open Lib Wavicle.Core Storage

variable {ι H : Type} [Inhabited ι]

/-- The allocations of `buildProofNode`: the number of the next node, and `pathIndex`. -/
structure Builder where
  next : ℕ
  pathIndex : GoMap Str ℕ

/-- What building returns: a tree, or nil where the path has no current atom. -/
abbrev Built (ι H : Type) := Except Fault (Option (ProofNode ι H)) × Builder

/-- The loop of `buildProofNode` over the hashes of a composite. -/
def buildChildren (build : Str → Builder → StoreProg ι H (Built ι H)) :
    List H → Builder → StoreProg ι H (Except Fault (List (ProofNode ι H)) × Builder)
  | [], b => pure (.ok [], b)
  | h :: hs, b => do
    match ← Prog.ask (⟨.given, .getAtom h⟩ : StoreCall ι H) with
    | none => buildChildren build hs b
    | some childAtom => do
      let (r, b) ← build childAtom.path b
      match r with
      | .error f => pure (.error f, b)
      | .ok child => do
        let (rs, b) ← buildChildren build hs b
        pure (rs.map (child.toList ++ ·), b)

/-- `buildProofNode`, for trees of depth `fuel` -/
def buildProofNode : ℕ → Str → Builder → StoreProg ι H (Built ι H)
  | 0, _, b => pure (.error .fuel, b)
  | fuel + 1, path, b => do
    match ← Prog.ask (⟨.given, .getCurrent path⟩ : StoreCall ι H) with
    | none => pure (.ok none, b)
    | some atom => do
      let info : NodeInfo ι H :=
        { addr := b.next, expr := atom.expr, cachedValue := none, dirty := false
          sourceHash := atom.hash, sourcePath := path }
      let b : Builder := ⟨b.next + 1, b.pathIndex.insert path b.next⟩
      match atom.expr with
      | .eCompose atoms => do
        let (r, b) ← buildChildren (buildProofNode fuel) atoms b
        pure (r.map fun children => some (.node info children), b)
      | _ => pure (.ok (some (.node info [])), b)

/-- `captureVersionVector` of the one atom that `gatherCausalClosure` returns -/
def captureVersionVector (a : CausalAtom ι H) : StoreProg ι H (VersionVector H) :=
  if a.path ≠ [] then do
    match ← Prog.ask (⟨.given, .getCurrent a.path⟩ : StoreCall ι H) with
    | some current => pure ((∅ : VersionVector H).insert a.path current.hash)
    | none => pure ((∅ : VersionVector H).insert a.path a.hash)
  else pure ∅

/-- The hashes of the tree's paths are added to the version vector, unless they are there already.
A node lies in `pathToNode` under its own source path. -/
def captureNodes : List Str → VersionVector H → StoreProg ι H (VersionVector H)
  | [], vv => pure vv
  | path :: paths, vv =>
    if path ≠ [] ∧ vv.lookup path = none then do
      match ← Prog.ask (⟨.inner, .getCurrentHash path⟩ : StoreCall ι H) with
      | some h => captureNodes paths (vv.insert path h)
      | none => captureNodes paths vv
    else captureNodes paths vv

/-- `ComposeProof`. The path is read three times: by `gatherCausalClosure`, by `buildProofNode` and
by `captureVersionVector`. A missing root node, or a first reduction that fails, is a panic. -/
def composeProof (fuel : ℕ) (path : Str) :
    StoreProg ι H (Except Fault (MaterializedProof ι H)) := do
  match ← Prog.ask (⟨.given, .getCurrent path⟩ : StoreCall ι H) with
  | none => pure (.error (.error (str "causal closure: path not found: " ++ path)))
  | some atom => do
    match ← buildProofNode fuel path ⟨0, ∅⟩ with
    | (.error f, _) => pure (.error f)
    | (.ok rootNode, b) => do
      let vv ← captureVersionVector atom
      let vv ← captureNodes b.pathIndex.keys vv
      match rootNode with
      | none => pure (.error .panic)
      | some root => do
        match ← reduceDirty fuel root ⟨0, 0, 0⟩ with
        | (.error f, _, _) => pure (.error (if f = .fuel then .fuel else .panic))
        | (.ok v, root, stats) =>
          pure (.ok
            { queryPath := path, value := v, versionVector := vv, pathToNode := b.pathIndex
              rootNode := root, reduceStats := stats })

end Wavicle.Engine
