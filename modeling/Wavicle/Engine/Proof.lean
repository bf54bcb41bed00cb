import Wavicle.Storage.Store
import Wavicle.Lib.Rose

/-! # Proofs

The data of `engine/proof.go`. The tree is a value, and a node is known by the number `addr` under which it was
allocated. The Merkle roots, the timestamps and access counts and the legacy `ProofTree` are left out. -/

namespace Wavicle.Engine

open Lib Wavicle.Core Storage

variable {ι H : Type}

/-- A `ProofNode` without its children. -/
structure NodeInfo (ι H : Type) where
  addr : ℕ
  expr : Expr ι H
  cachedValue : Option (Value ι)
  dirty : Bool
  sourceHash : H
  sourcePath : Str

abbrev ProofNode (ι H : Type) := Rose (NodeInfo ι H)

/-- What the last reduction has counted. -/
structure ReduceStats where
  changedPaths : ℕ
  cacheHits : ℕ
  cacheMisses : ℕ
  deriving DecidableEq

/-- A cached query: its value, its tree, and the hashes of the atoms that it was computed from. -/
structure MaterializedProof (ι H : Type) where
  queryPath : Str
  value : Value ι
  versionVector : VersionVector H
  pathToNode : GoMap Str ℕ
  rootNode : ProofNode ι H
  reduceStats : ReduceStats

/-- How an evaluation ends without a value; `fuel` is not one of the code. -/
inductive Fault where
  | error (msg : Str)
  | panic
  /-- a nil `Value`, which a combinator record without its arguments reduces to -/
  | nilValue
  | fuel
  deriving DecidableEq

def NodeInfo.setDirty (info : NodeInfo ι H) (dirty : Bool) : NodeInfo ι H :=
  { info with dirty := dirty }

def ProofNode.resetDirty (root : ProofNode ι H) : ProofNode ι H := root.map (·.setDirty false)

/-- `PropagateDirtyUp` on the node `addr` of the tree under `root`: it and its ancestors are marked,
up to the first one that is dirty already. -/
def ProofNode.propagateDirtyUp (root : ProofNode ι H) (addr : ℕ) : ProofNode ι H :=
  (root.raise (·.addr = addr) (·.dirty) (·.setDirty true)).1

/-- The loop over the changed paths in `ReduceIncremental`. -/
def ProofNode.propagateChanges (root : ProofNode ι H) (pathToNode : GoMap Str ℕ)
    (changed : List Str) : ProofNode ι H :=
  changed.foldl (fun root path =>
    match pathToNode.lookup path with
    | none => root
    | some addr => root.propagateDirtyUp addr) root

/-! ### What the marking does -/

def isHit (pathToNode : GoMap Str ℕ) (changed : List Str) (info : NodeInfo ι H) : Bool :=
  changed.any fun path => pathToNode.lookup path = some info.addr

/-- A clean tree with the nodes marked that have an indexed node of a changed path below them. -/
def ProofNode.marked (root : ProofNode ι H) (pathToNode : GoMap Str ℕ) (changed : List Str) :
    ProofNode ι H :=
  root.resetDirty.markWhere (isHit pathToNode changed) (·.setDirty true)

theorem countP_addr_le_one {l : List (NodeInfo ι H)} (h : (l.map (·.addr)).Nodup) (o : Option ℕ) :
    l.countP (fun info => o = some info.addr) ≤ 1 := by
  cases o with
  | none => simp
  | some addr =>
    have hcount := List.nodup_iff_count_le_one.1 h addr
    rw [List.count, List.countP_map] at hcount
    refine le_trans (le_of_eq (List.countP_congr fun info _ => ?_)) hcount
    simp only [decide_eq_true_eq, Option.some.injEq, Function.comp_apply, beq_iff_eq]
    exact eq_comm

/-- **The marking of `ReduceIncremental`** leaves dirty exactly the nodes above (or at) an indexed
node of a changed path. -/
theorem propagateChanges_resetDirty {root : ProofNode ι H}
    (h : (root.labels.map (·.addr)).Nodup) (pathToNode : GoMap Str ℕ) (changed : List Str) :
    root.resetDirty.propagateChanges pathToNode changed = root.marked pathToNode changed := by
  have hstep : ∀ (r : ProofNode ι H) (path : Str),
      (match pathToNode.lookup path with
        | none => r
        | some addr => r.propagateDirtyUp addr) =
      (r.raise (fun info => pathToNode.lookup path = some info.addr) (·.dirty)
        (·.setDirty true)).1 := by
    intro r path
    cases hp : pathToNode.lookup path with
    | none => rw [Rose.raise_of_none _ _ r (by simp)]
    | some addr => simp only [ProofNode.propagateDirtyUp, Option.some.injEq, eq_comm]
  unfold ProofNode.propagateChanges ProofNode.marked
  simp only [hstep]
  have haddr : (root.resetDirty.labels.map (·.addr)) = root.labels.map (·.addr) := by
    rw [ProofNode.resetDirty, Rose.labels_map, List.map_map]
    rfl
  change _ = Rose.markWhere
    (fun info : NodeInfo ι H => changed.any fun path => pathToNode.lookup path = some info.addr) _ _
  refine Rose.foldl_raise ?_ ?_ ?_ changed _ (Rose.upClosed_of_unmarked _ ?_)
    (fun path _ => countP_addr_le_one (haddr ▸ h) _)
  · exact fun _ => rfl
  · intro info hdirty
    cases info
    simp_all [NodeInfo.setDirty]
  · exact fun _ _ => rfl
  · intro info hinfo
    rw [ProofNode.resetDirty, Rose.labels_map] at hinfo
    obtain ⟨info', -, rfl⟩ := List.mem_map.1 hinfo
    rfl

theorem label_marked (t : ProofNode ι H) (pathToNode : GoMap Str ℕ) (changed : List Str) :
    (t.marked pathToNode changed).label = t.label.setDirty (t.labels.any (isHit pathToNode changed)) := by
  have hany : t.resetDirty.labels.any (isHit pathToNode changed) =
      t.labels.any (isHit pathToNode changed) := by
    rw [ProofNode.resetDirty, Rose.labels_map, List.any_map]
    rfl
  rw [ProofNode.marked, Rose.label_markWhere, hany]
  cases t with
  | node info cs =>
    rw [ProofNode.resetDirty, Rose.map_node]
    cases (Rose.node info cs).labels.any (isHit pathToNode changed) <;> rfl

theorem marked_node (info : NodeInfo ι H) (cs : List (ProofNode ι H)) (pathToNode : GoMap Str ℕ)
    (changed : List Str) : ProofNode.marked (.node info cs) pathToNode changed =
      .node (info.setDirty ((Rose.node info cs).labels.any (isHit pathToNode changed)))
        (cs.map (ProofNode.marked · pathToNode changed)) := by
  have hlabel := label_marked (.node info cs) pathToNode changed
  rw [ProofNode.marked, ProofNode.resetDirty, Rose.map_node, Rose.markWhere_node] at hlabel ⊢
  rw [Rose.label_node] at hlabel
  rw [hlabel, List.map_map]
  rfl

end Wavicle.Engine
