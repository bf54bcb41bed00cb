import Wavicle.Engine.Composition
import Wavicle.Lib.Merkle
import Wavicle.Storage.WalRecord

/-! # Merkle roots

The root of a list of hashes is computed twice, by `computeMerkle` of the engine and by `MerkleTree` of the
storage; they agree, and lists of one length with one root are equal. -/

namespace Wavicle.Engine

open Lib Lib.Merkle Wavicle.Core Storage
open RecordTexts (isZero)

variable {ι H : Type} [Hashing H]

/-! ### Lists of hashes -/

/-- `core.HashBytes(append(a[:], b[:]...))` -/
def hashNode (a b : H) : H := Hashing.sha3 (Hashing.bytes a ++ Hashing.bytes b)

/-- `computeMerkle`; `zero` is `core.Hash{}` -/
def computeMerkle (zero : H) : List H → H
  | [] => zero
  | [h] => h
  | a :: b :: rest => computeMerkle zero (level hashNode (a :: b :: rest))
termination_by l => l.length
decreasing_by exact length_level_lt hashNode a b rest

/-- `MerkleTree.computeRoot`, which does not return on the empty list -/
def computeRoot : List H → Option H
  | [] => none
  | [h] => some h
  | a :: b :: rest => computeRoot (level hashNode (a :: b :: rest))
termination_by l => l.length
decreasing_by exact length_level_lt hashNode a b rest

theorem computeRoot_eq (zero : H) (l : List H) (h : l ≠ []) : computeRoot l = some (computeMerkle zero l) := by
  fun_induction computeRoot l with
  | case1 => exact absurd rfl h
  | case2 a => rw [computeMerkle]
  | case3 a b rest ih => rw [computeMerkle, ih (level_ne_nil hashNode h)]

theorem computeMerkle_injective (zero : H)
    (hnode : ∀ a b c d : H, hashNode a b = hashNode c d → a = c ∧ b = d) (l : List H) :
    ∀ l' : List H, l.length = l'.length → computeMerkle zero l = computeMerkle zero l' → l = l' := by
  fun_induction computeMerkle zero l with
  | case1 => exact fun l' hlength _ => (List.length_eq_zero_iff.1 hlength.symm).symm
  | case2 a =>
    intro l' hlength h
    obtain ⟨b, rfl⟩ := List.length_eq_one_iff.1 hlength.symm
    rw [computeMerkle] at h
    rw [h]
  | case3 a b rest ih =>
    intro l' hlength h
    match l', hlength with
    | c :: d :: rest', hlength =>
      rw [computeMerkle] at h
      have hlevels : (level hashNode (a :: b :: rest)).length = (level hashNode (c :: d :: rest')).length := by
        rw [length_level, length_level, hlength]
      exact level_injective hnode hlength (ih _ hlevels h)

/-- The hashes of the paths, where a zero hash stands for that of the current atom. -/
def leafHashes (zero : H) (vv : VersionVector H) : List Str → StoreProg ι H (List H)
  | [] => pure []
  | p :: paths => do
    let h := (vv.lookup p).getD zero
    let cur ← if isZero h then Prog.ask (⟨.given, .getCurrent p⟩ : StoreCall ι H) else pure none
    let hashes ← leafHashes zero vv paths
    pure ((cur.elim h (·.hash)) :: hashes)

def computeVersionMerkleRoot (zero : H) (vv : VersionVector H) : StoreProg ι H H := do
  let hashes ← leafHashes zero vv (sortStrings vv.keys)
  pure (computeMerkle zero hashes)

/-- No hash of the vector is the zero hash. -/
def NoZero (vv : VersionVector H) : Prop := ∀ p h, vv.lookup p = some h → isZero h = false

variable {zero : H} {vv vv' : VersionVector H}

theorem eval_leafHashes [DecidableEq H] (V : View ι H) (h : NoZero vv) : ∀ paths : List Str,
    (∀ p ∈ paths, p ∈ vv) →
      (leafHashes zero vv paths).eval V.answer = paths.map fun p => (vv.lookup p).getD zero
  | [], _ => rfl
  | p :: paths, hp => by
    obtain ⟨hash, hhash⟩ := Option.isSome_iff_exists.1 (AList.lookup_isSome.2 (hp p (.head _)))
    have hrest := eval_leafHashes V h paths (List.forall_mem_cons.1 hp).2
    have hzero : ¬ isZero ((vv.lookup p).getD zero) = true := by
      rw [hhash, Option.getD_some, h p hash hhash]
      exact Bool.false_ne_true
    simp only [leafHashes, Prog.eval_bind, if_neg hzero, hrest, List.map_cons]
    rfl

/-- **Merkle roots of lists**: they bind lists of one length, the two implementations agree, and version vectors
over the same paths have one root exactly if they are the same. -/
theorem merkle_roots_bind [DecidableEq H] (zero : H)
    (hnode : ∀ a b c d : H, hashNode a b = hashNode c d → a = c ∧ b = d) :
    (∀ l l' : List H, l ≠ [] → l.length = l'.length → computeMerkle zero l = computeMerkle zero l' → l = l') ∧
      (∀ l : List H, l ≠ [] → computeRoot l = some (computeMerkle zero l)) ∧
      ∀ (V V' : View ι H) (vv vv' : VersionVector H), (∀ p, p ∈ vv ↔ p ∈ vv') → NoZero vv → NoZero vv' →
        ((computeVersionMerkleRoot zero vv).eval V.answer = (computeVersionMerkleRoot zero vv').eval V'.answer ↔
          ∀ p, vv.lookup p = vv'.lookup p) := by
  refine ⟨fun l l' _ => computeMerkle_injective zero hnode l l', fun l hl => computeRoot_eq zero l hl,
    fun V V' vv vv' hpaths h h' => ?_⟩
  have hroot : ∀ (V : View ι H) {vv : VersionVector H}, NoZero vv →
      (computeVersionMerkleRoot zero vv).eval V.answer =
        computeMerkle zero ((sortStrings vv.keys).map fun p => (vv.lookup p).getD zero) := by
    intro V vv h
    have hmem : ∀ p ∈ sortStrings vv.keys, p ∈ vv := fun p hp => (List.mem_insertionSort _).1 hp
    simp only [computeVersionMerkleRoot, Prog.eval_bind, eval_leafHashes V h _ hmem]
    rfl
  have hkeys : vv.keys.Perm vv'.keys := (List.perm_ext_iff_of_nodup vv.nodupKeys vv'.nodupKeys).2 hpaths
  rw [hroot V h, hroot V' h', ← sortStrings_perm hkeys]
  constructor
  · intro heq p
    have hlists := computeMerkle_injective zero hnode _ _ (by simp) heq
    by_cases hp : p ∈ vv
    · have hsame := List.map_inj_left.1 hlists p ((List.mem_insertionSort _).2 hp)
      obtain ⟨x, hx⟩ := Option.isSome_iff_exists.1 (AList.lookup_isSome.2 hp)
      obtain ⟨y, hy⟩ := Option.isSome_iff_exists.1 (AList.lookup_isSome.2 ((hpaths p).1 hp))
      rw [hx, hy, Option.getD_some, Option.getD_some] at hsame
      rw [hx, hy, hsame]
    · rw [AList.lookup_eq_none.2 hp, AList.lookup_eq_none.2 fun hp' => hp ((hpaths p).2 hp')]
  · intro heq
    simp only [heq]

/-! ### Proof nodes -/

/-- The fields `MerkleRoot` and `MerkleValid` of a node. -/
structure MerkleFields where
  root : Str
  valid : Bool

/-- `ComputeMerkleRoot`: the root, and the node with what is cached in it. Only the first eight bytes of the root
are written for a node without a source hash. -/
def computeMerkleRoot : Rose (NodeInfo ι H × MerkleFields) → Str × Rose (NodeInfo ι H × MerkleFields)
  | .node (info, fields) cs =>
    if fields.valid then (fields.root, .node (info, fields) cs)
    else if isZero info.sourceHash then
      let below := computeRoots cs
      let sum := Hashing.xxhash H (info.expr.serialize ++ below.flatMap fun r => r.1.take 8)
      let root := bigEndian 8 sum.toNat ++ fields.root.drop 8
      (root, .node (info, ⟨root, true⟩) (below.map (·.2)))
    else
      let root := Hashing.bytes info.sourceHash
      (root, .node (info, ⟨root, true⟩) cs)
where
  computeRoots : List (Rose (NodeInfo ι H × MerkleFields)) → List (Str × Rose (NodeInfo ι H × MerkleFields))
    | [] => []
    | c :: cs => computeMerkleRoot c :: computeRoots cs

/-- The root of a tree that `buildProofNode` has built. -/
def ProofNode.merkleRoot (t : ProofNode ι H) : Str :=
  (computeMerkleRoot (t.map fun info => (info, ⟨List.replicate 32 0, false⟩))).1

/-- The leaves get the source hashes `σ`. -/
def ProofNode.assign (σ : ℕ → H) : ProofNode ι H → ProofNode ι H
  | .node info [] => .node { info with sourceHash := σ info.addr } []
  | .node info (c :: cs) => .node info (assignAll (c :: cs))
where
  assignAll : List (ProofNode ι H) → List (ProofNode ι H)
    | [] => []
    | c :: cs => assign σ c :: assignAll cs

def ProofNode.leaves : ProofNode ι H → List (NodeInfo ι H)
  | .node info [] => [info]
  | .node _ (c :: cs) => allLeaves (c :: cs)
where
  allLeaves : List (ProofNode ι H) → List (NodeInfo ι H)
    | [] => []
    | c :: cs => leaves c ++ allLeaves cs

/-- The root tells apart any two assignments of hashes to the leaves. -/
def SeesLeaves (t : ProofNode ι H) : Prop :=
  ∀ σ τ : ℕ → H, (∀ addr, isZero (σ addr) = false) → (∀ addr, isZero (τ addr) = false) →
    (∃ info ∈ t.leaves, σ info.addr ≠ τ info.addr) → (t.assign σ).merkleRoot ≠ (t.assign τ).merkleRoot

theorem merkleRoot_of_hash {info : NodeInfo ι H} (h : isZero info.sourceHash = false)
    (cs : List (ProofNode ι H)) : ProofNode.merkleRoot (.node info cs) = Hashing.bytes info.sourceHash := by
  rw [ProofNode.merkleRoot, Rose.map_node, computeMerkleRoot]
  simp [h]

omit [Hashing H] in
theorem exists_leaf : ∀ t : ProofNode ι H, ∃ info, info ∈ t.leaves
  | .node info [] => ⟨info, List.mem_singleton_self info⟩
  | .node _ (c :: _) => by
    obtain ⟨info, hinfo⟩ := exists_leaf c
    exact ⟨info, List.mem_append_left _ hinfo⟩

/-- **The root of a proof tree** sees changes of the leaves exactly if the tree is a single node. -/
theorem leaf_changes_seen_iff [Inhabited ι] [DecidableEq H] {V : View ι H} {fuel : ℕ} {path : Str} {b b' : Builder}
    {t : ProofNode ι H} (hbytes : Function.Injective (Hashing.bytes : H → Str))
    (hmore : ∃ h h' : H, isZero h = false ∧ isZero h' = false ∧ h ≠ h')
    (hatoms : ∀ p a, V.current p = some a → isZero a.hash = false)
    (hbuilt : (buildProofNode fuel path b).eval V.answer = (.ok (some t), b')) :
    SeesLeaves t ↔ t.children = [] := by
  obtain ⟨⟨info, cs, atom, hcurrent, -, hhash, -, -, -, -⟩, -, -⟩ := buildProofNode_spec V fuel path b _ _ hbuilt
  have hroot : isZero info.sourceHash = false := hhash ▸ hatoms _ _ hcurrent
  cases cs with
  | nil =>
    refine iff_of_true (fun σ τ hσ hτ hne heq => ?_) rfl
    obtain ⟨leaf, hleaf, hne⟩ := hne
    obtain rfl := List.mem_singleton.1 hleaf
    rw [ProofNode.assign, ProofNode.assign, merkleRoot_of_hash (hσ _), merkleRoot_of_hash (hτ _)] at heq
    exact hne (hbytes heq)
  | cons c cs =>
    refine iff_of_false (fun hsees => ?_) (List.cons_ne_nil c cs)
    obtain ⟨h, h', hh, hh', hne⟩ := hmore
    obtain ⟨leaf, hleaf⟩ := exists_leaf (.node info (c :: cs))
    -- below a node with a hash, every change goes unseen
    refine hsees (fun _ => h) (fun _ => h') (fun _ => hh) (fun _ => hh') ⟨leaf, hleaf, hne⟩ ?_
    rw [ProofNode.assign, ProofNode.assign, merkleRoot_of_hash hroot, merkleRoot_of_hash hroot]

/-! ### A composite of one constant -/

section Instances

def delimited : Str → Str
  | [] => [0]
  | b :: s => 1 :: b :: delimited s

theorem delimited_append_inj : ∀ {a c x y : Str}, delimited a ++ x = delimited c ++ y → a = c ∧ x = y
  | [], [], _, _, h => ⟨rfl, (List.cons.inj h).2⟩
  | b :: a, d :: c, _, _, h => by
    obtain ⟨rfl, hrest⟩ := List.cons.inj (List.cons.inj h).2
    obtain ⟨rfl, hxy⟩ := delimited_append_inj hrest
    exact ⟨rfl, hxy⟩
  | [], _ :: _, _, _, h | _ :: _, [], _, _, h => absurd (List.cons.inj h).1 (by decide)

local instance delimitedHashing : Hashing Str := ⟨id, delimited, fun _ => 0⟩

theorem delimited_injective : Function.Injective delimited := by
  intro a c h
  have happend : delimited a ++ [] = delimited c ++ [] := by rw [h]
  exact (delimited_append_inj happend).1

def emptyView : View Unit Str := ⟨fun _ => none, fun _ => none⟩

/-- Two paths, with these hashes. -/
def pairVector (h h' : Str) : VersionVector Str := ((∅ : VersionVector Str).insert (str "p") h).insert (str "q") h'

theorem noZero_pairVector {h h' : Str} (hh : isZero h = false) (hh' : isZero h' = false) :
    NoZero (pairVector h h') := by
  intro p x hx
  unfold pairVector at hx
  by_cases hq : p = str "q"
  · rw [hq, AList.lookup_insert] at hx
    exact Option.some.inj hx ▸ hh'
  rw [AList.lookup_insert_ne hq] at hx
  by_cases hp : p = str "p"
  · rw [hp, AList.lookup_insert] at hx
    exact Option.some.inj hx ▸ hh
  · rw [AList.lookup_insert_ne hp] at hx
    cases hx

theorem merkle_roots_bind_pair :
    computeMerkle [] [str "a", str "b"] ≠ computeMerkle [] [str "a", str "c"] ∧
      computeRoot [str "a", str "b"] = some (computeMerkle [] [str "a", str "b"]) ∧
      (computeVersionMerkleRoot [] (pairVector (str "a") (str "b"))).eval emptyView.answer ≠
        (computeVersionMerkleRoot [] (pairVector (str "a") (str "c"))).eval emptyView.answer := by
  have hbind := merkle_roots_bind (ι := Unit) ([] : Str) fun a b c d h => by
    obtain ⟨rfl, hbd⟩ := delimited_append_inj h
    exact ⟨rfl, delimited_injective hbd⟩
  refine ⟨fun h => ?_, hbind.2.1 _ (List.cons_ne_nil _ _), fun h => ?_⟩
  · exact absurd (hbind.1 [str "a", str "b"] [str "a", str "c"] (by decide) (by decide) h) (by decide)
  · have hlookup := (hbind.2.2 emptyView emptyView _ _ (fun p => by simp [pairVector])
      (noZero_pairVector (by decide) (by decide))
      (noZero_pairVector (by decide) (by decide))).1 h (str "q")
    exact absurd hlookup (by decide)

def constantAtom : CausalAtom Unit Str := ⟨[1], .eConst (.vInt 1), [], 1, 0, [], str "a", zeroTime⟩

def compositeAtom : CausalAtom Unit Str := ⟨[2], .eCompose [[1]], [], 2, 0, [], str "P", zeroTime⟩

def twoAtoms : View Unit Str :=
  ⟨fun p => if p = str "P" then some compositeAtom else some constantAtom, fun _ => some constantAtom⟩

theorem leaf_change_unseen : ∃ (t : ProofNode Unit Str) (b : Builder),
    (buildProofNode 2 (str "P") ⟨0, ∅⟩).eval twoAtoms.answer = (.ok (some t), b) ∧
      t.leaves.map (·.sourcePath) = [str "a"] ∧
      (t.assign fun _ => [1]).merkleRoot = (t.assign fun _ => [3]).merkleRoot :=
  ⟨.node ⟨0, .eCompose [[1]], none, false, [2], str "P"⟩
    [.node ⟨1, .eConst (.vInt 1), none, false, [1], str "a"⟩ []], _, rfl, rfl, by decide +kernel⟩

theorem leaf_changes_seen_iff_constant : ∃ t : ProofNode Unit Str, t.children = [] ∧ SeesLeaves t := by
  have hzero : ∀ p a, twoAtoms.current p = some a → isZero a.hash = false := by
    intro p a ha
    simp only [twoAtoms] at ha
    split_ifs at ha <;> obtain rfl := Option.some.inj ha <;> decide
  refine ⟨.node ⟨0, .eConst (.vInt 1), none, false, [1], str "a"⟩ [], rfl, ?_⟩
  exact (leaf_changes_seen_iff (V := twoAtoms) (b := ⟨0, ∅⟩) delimited_injective
    ⟨[1], [2], by decide, by decide, by decide⟩ hzero (rfl : (buildProofNode 1 (str "a") _).eval _ = _)).2 rfl

end Instances

end Wavicle.Engine
