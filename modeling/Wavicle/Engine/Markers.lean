import Wavicle.Engine.Proof

/-! # The two dirty markers

`MarkDirty` descends and returns at the first changed node; `PropagateDirtyUp` climbs from every changed node.

* `hit`: a node or one below it has changed; `markDirty_eq_iff`: what the descent marks.
* `markers_agree_iff`: the two mark the same exactly if the changed nodes are `Apart`. -/

namespace Wavicle.Engine

open Lib Wavicle.Core ProofNode

variable {ι H : Type}

def ProofNode.markDirty (changed : List Str) : ProofNode ι H → ProofNode ι H
  | .node info cs =>
    if info.sourcePath ≠ [] ∧ info.sourcePath ∈ changed then .node (info.setDirty true) cs
    else .node (if (markList cs).any (·.label.dirty) then info.setDirty true else info) (markList cs)
where
  markList : List (ProofNode ι H) → List (ProofNode ι H)
    | [] => []
    | c :: cs => c.markDirty changed :: markList cs

/-- The changed nodes and their ancestors are dirty. -/
def ProofNode.dirtied (changed : List Str) (t : ProofNode ι H) : ProofNode ι H :=
  t.markWhere (·.sourcePath ∈ changed) (·.setDirty true)

/-- A clean tree with an index that leads from every path to its node; so the paths are distinct. -/
structure Unmarked (pathToNode : GoMap Str ℕ) (root : ProofNode ι H) : Prop where
  addrs : (root.labels.map (·.addr)).Nodup
  clean : ∀ info ∈ root.labels, info.dirty = false
  index : ∀ path addr, pathToNode.lookup path = some addr ↔
    ∃ info ∈ root.labels, info.sourcePath = path ∧ info.addr = addr

/-- The node or one below it has changed. -/
def hit (changed : List Str) (t : ProofNode ι H) : Bool := t.labels.any (·.sourcePath ∈ changed)

/-- A changed node has a changed node below it exactly if its own path is empty. -/
inductive Apart (changed : List Str) : ProofNode ι H → Prop where
  | node (info : NodeInfo ι H) (cs : List (ProofNode ι H)) (below : ∀ c ∈ cs, Apart changed c)
      (here : info.sourcePath ∈ changed → (cs.any (hit changed) = true ↔ info.sourcePath = [])) :
      Apart changed (.node info cs)

variable {changed : List Str} {pathToNode : GoMap Str ℕ} {root : ProofNode ι H} {info : NodeInfo ι H}
  {cs : List (ProofNode ι H)} {t : ProofNode ι H}

theorem markDirty_node : markDirty changed (.node info cs) =
    if info.sourcePath ≠ [] ∧ info.sourcePath ∈ changed then .node (info.setDirty true) cs
    else .node (if (cs.map (markDirty changed)).any (·.label.dirty) then info.setDirty true
      else info) (cs.map (markDirty changed)) := by
  have hlist : ∀ cs : List (ProofNode ι H),
      markDirty.markList changed cs = cs.map (markDirty changed) := by
    intro cs
    induction cs with
    | nil => rfl
    | cons c cs ih => simp [markDirty.markList, ih]
  rw [markDirty, hlist]

theorem hit_node : hit changed (.node info cs) = (decide (info.sourcePath ∈ changed) || cs.any (hit changed)) := by
  rw [hit, Rose.labels_node, List.any_cons, List.any_flatMap]
  rfl

theorem dirty_dirtied (h : t.label.dirty = false) : (t.dirtied changed).label.dirty = hit changed t := by
  rw [dirtied, Rose.label_markWhere, ← hit]
  cases hit changed t
  · exact h
  · rfl

theorem dirtied_eq_self (h : t.label.dirty = false) : t.dirtied changed = t ↔ hit changed t = false := by
  constructor
  · intro heq
    rw [← dirty_dirtied h, heq, h]
  · exact fun hnone => Rose.markWhere_of_none _ t (by simpa [hit] using hnone)

theorem apart_of_hit (t : ProofNode ι H) (h : hit changed t = false) : Apart changed t := by
  induction t using Rose.induct with
  | node info cs ih =>
    simp only [hit_node, Bool.or_eq_false_iff, decide_eq_false_iff_not, List.any_eq_false, Bool.not_eq_true] at h
    exact .node info cs (fun c hc => ih c hc (h.2 c hc)) fun hchanged => absurd hchanged h.1

/-- What `MarkDirty` leaves dirty, one node at a time. -/
theorem markDirty_eq_iff (t : ProofNode ι H) (hclean : ∀ info ∈ t.labels, info.dirty = false) :
    t.markDirty changed = t.dirtied changed ↔ Apart changed t := by
  induction t using Rose.induct with
  | node info cs ih =>
    rw [Rose.labels_node, List.forall_mem_cons] at hclean
    obtain ⟨hinfo, hclean⟩ := hclean
    have hsub : ∀ c ∈ cs, ∀ x ∈ c.labels, x.dirty = false :=
      fun c hc x hx => hclean x (List.mem_flatMap.2 ⟨c, hc, hx⟩)
    have hroot : ∀ c ∈ cs, c.label.dirty = false := fun c hc => hsub c hc _ c.label_mem_labels
    have hnode : dirtied changed (.node info cs) =
        .node (if hit changed (.node info cs) then info.setDirty true else info)
          (cs.map (dirtied changed)) := Rose.markWhere_node ..
    have hapart : Apart changed (.node info cs) ↔ (∀ c ∈ cs, Apart changed c) ∧
        (info.sourcePath ∈ changed → (cs.any (hit changed) = true ↔ info.sourcePath = [])) :=
      ⟨fun h => by cases h with | node _ _ below here => exact ⟨below, here⟩, fun h => .node info cs h.1 h.2⟩
    rw [markDirty_node, hnode, hapart, hit_node]
    by_cases hreturn : info.sourcePath ≠ [] ∧ info.sourcePath ∈ changed
    · -- it returns here, and the children stay clean
      have hself : cs.map (dirtied changed) = cs ↔ ∀ c ∈ cs, hit changed c = false := by
        rw [← forall₂_congr fun c hc => dirtied_eq_self (hroot c hc)]
        simpa using List.map_inj_left (l := cs) (f := dirtied changed) (g := id)
      rw [if_pos hreturn, decide_eq_true hreturn.2, Bool.true_or, if_pos rfl, Rose.node.injEq,
        and_iff_right rfl, eq_comm, hself]
      simp only [hreturn.2, hreturn.1, forall_const, iff_false, List.any_eq_true, not_exists, not_and,
        Bool.not_eq_true]
      exact ⟨fun hnone => ⟨fun c hc => apart_of_hit c (hnone c hc), hnone⟩, And.right⟩
    · have hempty : info.sourcePath ∈ changed → info.sourcePath = [] :=
        fun hchanged => by_contra fun hne => hreturn ⟨hne, hchanged⟩
      have hne : info ≠ info.setDirty true := fun heq => by
        have hdirty := hinfo.symm.trans (congrArg NodeInfo.dirty heq)
        cases hdirty
      rw [if_neg hreturn, Rose.node.injEq, List.map_inj_left, and_comm,
        ← forall₂_congr fun c hc => ih c hc (hsub c hc)]
      refine and_congr_right fun hsame => ?_
      have hdirty : (cs.map (markDirty changed)).any (·.label.dirty) = cs.any (hit changed) := by
        rw [List.map_congr_left hsame, List.any_map]
        exact Rose.any_congr_mem fun c hc => dirty_dirtied (hroot c hc)
      rw [hdirty]
      cases cs.any (hit changed)
      · by_cases hchanged : info.sourcePath ∈ changed
        · simp [hempty hchanged, hne]
        · simp [hchanged]
      · simpa using hempty

theorem Unmarked.propagateChanges (h : Unmarked pathToNode root) (changed : List Str) :
    root.propagateChanges pathToNode changed = root.dirtied changed := by
  have hclean : root.resetDirty = root := by
    refine Rose.map_eq_self root fun info hinfo => ?_
    have hdirty := h.clean info hinfo
    cases info
    exact congrArg _ hdirty.symm
  have hmarked := propagateChanges_resetDirty h.addrs pathToNode changed
  rw [marked, hclean] at hmarked
  rw [hmarked]
  refine Rose.markWhere_congr _ root fun info hinfo => Bool.eq_iff_iff.2 ?_
  simp only [isHit, List.any_eq_true, decide_eq_true_eq, h.index]
  constructor
  · rintro ⟨path, hpath, other, hother, rfl, haddr⟩
    rwa [← List.inj_on_of_nodup_map h.addrs hother hinfo haddr]
  · exact fun hchanged => ⟨info.sourcePath, hchanged, info, hinfo, rfl, rfl⟩

/-- **The two markers agree**, and mark the changed nodes and their ancestors, exactly if a changed node has a
changed node below it only where its own path is empty. -/
theorem markers_agree_iff (h : Unmarked pathToNode root) (changed : List Str) :
    root.markDirty changed = root.propagateChanges pathToNode changed ∧
      root.propagateChanges pathToNode changed = root.dirtied changed ↔ Apart changed root := by
  rw [h.propagateChanges, and_iff_left rfl]
  exact markDirty_eq_iff root h.clean

section Instances

def cleanNode (addr : ℕ) (path : String) : NodeInfo Unit Str :=
  ⟨addr, .eConst (.vInt 1), none, false, [], str path⟩

def twoNodes : ProofNode Unit Str := .node (cleanNode 0 "P") [.node (cleanNode 1 "a") []]

def twoIndex : GoMap Str ℕ := (AList.insert (str "P") 0 ∅).insert (str "a") 1

theorem two_unmarked : Unmarked twoIndex twoNodes where
  addrs := by decide
  clean := by decide
  index path addr := by
    have hne : str "P" ≠ str "a" := by decide
    have hlabels : twoNodes.labels = [cleanNode 0 "P", cleanNode 1 "a"] := rfl
    rw [hlabels, twoIndex, GoMap.lookup_insert, GoMap.lookup_insert]
    split_ifs with ha hp
    · simp [cleanNode, ha, hne]
    · simp [cleanNode, hp, hne.symm]
    · simp [cleanNode, Ne.symm ha, Ne.symm hp]

/-- `P` and `a` have changed: `MarkDirty` returns at `P`, and `a` stays clean. -/
theorem changed_below_changed : Unmarked twoIndex twoNodes ∧
    (twoNodes.labels.map (·.sourcePath)).Nodup ∧
    (twoNodes.markDirty [str "P", str "a"]).labels.map (·.dirty) = [true, false] ∧
    (twoNodes.propagateChanges twoIndex [str "P", str "a"]).labels.map (·.dirty) = [true, true] := by
  exact ⟨two_unmarked, by decide, by decide, by decide⟩

theorem markers_agree_iff_leaf :
    twoNodes.markDirty [str "a"] = twoNodes.propagateChanges twoIndex [str "a"] := by
  refine ((markers_agree_iff two_unmarked [str "a"]).2 (.node _ _ (fun c hc => ?_) ?_)).1
  · obtain rfl := List.mem_singleton.1 hc
    exact .node _ _ (by simp) (by decide)
  · decide

end Instances

end Wavicle.Engine
