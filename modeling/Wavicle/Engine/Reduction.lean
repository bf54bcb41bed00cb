import Wavicle.Engine.Compose

/-! # What a reduction computes

The programs of the engine only read the store, so each of them has a result that depends on the store's view
alone. -/

namespace Wavicle.Engine

open Lib Wavicle.Core Storage

variable {ι H : Type} [Inhabited ι]

/-- A constant or a composite: the expressions that are ever appended to a store. -/
def IsPlain : Expr ι H → Prop
  | .eConst _ => True
  | .eCompose _ => True
  | _ => False

/-- The node as `refresh` leaves it. -/
def NodeInfo.refreshed (V : View ι H) (info : NodeInfo ι H) : NodeInfo ι H :=
  if info.sourcePath ≠ [] ∧ info.dirty then
    match V.current info.sourcePath with
    | some atom => { info with expr := atom.expr, sourceHash := atom.hash }
    | none => info
  else info

def reread (V : View ι H) (p : Str) (e : Expr ι H) : Expr ι H :=
  match V.current p with
  | some a => if p ≠ [] then a.expr else e
  | none => e

variable {info : NodeInfo ι H} {V : View ι H} {proof : MaterializedProof ι H}

omit [Inhabited ι] in
theorem expr_refreshed (V : View ι H) (h : info.dirty = true) :
    (info.refreshed V).expr = reread V info.sourcePath info.expr := by
  unfold NodeInfo.refreshed reread
  rw [h]
  cases V.current info.sourcePath <;> by_cases hp : info.sourcePath = [] <;> simp [hp]

omit [Inhabited ι] in
theorem refreshed_of_clean (V : View ι H) (h : info.dirty = false) : info.refreshed V = info := by
  unfold NodeInfo.refreshed
  rw [if_neg (by simp [h])]

def ProofNode.cached (n : ProofNode ι H) : Value ι := n.label.cachedValue.getD .vNull

def ProofNode.field (n : ProofNode ι H) : Str × Value ι := (n.label.sourcePath, n.cached)

def NodeInfo.settled (info : NodeInfo ι H) (v : Value ι) : NodeInfo ι H :=
  { info with cachedValue := some v, dirty := false }

/-- The tree after a reduction. -/
def reduced (V : View ι H) : ProofNode ι H → ProofNode ι H
  | .node info cs =>
    match info.dirty, info.cachedValue with
    | false, some _ => .node info cs
    | _, _ =>
      match (info.refreshed V).expr with
      | .eConst v => .node ((info.refreshed V).settled v) cs
      | .eCompose _ =>
        .node ((info.refreshed V).settled (newRecord ((reducedList cs).map ProofNode.field)))
          (reducedList cs)
      | _ => .node (info.refreshed V) cs
where
  reducedList : List (ProofNode ι H) → List (ProofNode ι H)
    | [] => []
    | c :: cs => reduced V c :: reducedList cs

theorem reducedList_eq_map (V : View ι H) : ∀ cs : List (ProofNode ι H),
    reduced.reducedList V cs = cs.map (reduced V)
  | [] => rfl
  | c :: cs => by rw [reduced.reducedList, reducedList_eq_map V cs, List.map_cons]

theorem reduced_of_clean (V : View ι H) {v : Value ι} (hd : info.dirty = false)
    (hc : info.cachedValue = some v) (cs : List (ProofNode ι H)) :
    reduced V (.node info cs) = .node info cs := by
  unfold reduced
  rw [hd, hc]

theorem reduced_of_eConst (V : View ι H) {v : Value ι}
    (h : info.dirty = true ∨ info.cachedValue = none) (he : (info.refreshed V).expr = .eConst v)
    (cs : List (ProofNode ι H)) : reduced V (.node info cs) = .node ((info.refreshed V).settled v) cs := by
  unfold reduced
  split
  · rename_i hd hc
    simp [hd, hc] at h
  · rw [he]

theorem reduced_of_eCompose (V : View ι H) {hs : List H}
    (h : info.dirty = true ∨ info.cachedValue = none) (he : (info.refreshed V).expr = .eCompose hs)
    (cs : List (ProofNode ι H)) : reduced V (.node info cs) =
      .node ((info.refreshed V).settled (newRecord (cs.map fun c => (reduced V c).field)))
        (cs.map (reduced V)) := by
  rw [reduced]
  split
  · rename_i hd hc
    simp [hd, hc] at h
  · rw [he]
    simp only [reducedList_eq_map, List.map_map]
    rfl

/-! ### The program computes it -/

variable [DecidableEq H]

/-- Every node of the tree is, once refreshed, a constant or a composite. -/
def Plain (V : View ι H) (n : ProofNode ι H) : Prop :=
  ∀ info ∈ n.labels, IsPlain (info.refreshed V).expr

omit [Inhabited ι] in
theorem eval_refresh (V : View ι H) (info : NodeInfo ι H) :
    (refresh info).eval V.answer = info.refreshed V := by
  unfold refresh NodeInfo.refreshed
  split_ifs
  · simp only [Prog.eval_bind, Prog.eval_ask, View.answer_getCurrent]
    cases V.current info.sourcePath <;> rfl
  · rfl

/-- The reduction of the node is `reduced`. -/
def Computes (fuel : ℕ) (V : View ι H) (n : ProofNode ι H) : Prop :=
  ∀ stats, ∃ stats', (reduceDirty fuel n stats).eval V.answer =
    (.ok (reduced V n).cached, reduced V n, stats') ∧ stats'.changedPaths = stats.changedPaths

theorem eval_reduceChildren_zero (fuel : ℕ) (V : View ι H) (cs : List (ProofNode ι H))
    (stats : ReduceStats) :
    (reduceDirty.reduceChildren fuel 0 cs stats).eval V.answer = (.ok [], cs, stats) := by
  cases cs <;> rw [reduceDirty.reduceChildren] <;> rfl

theorem eval_reduceChildren {fuel : ℕ} : ∀ cs : List (ProofNode ι H),
    (∀ c ∈ cs, Computes fuel V c) → ∀ stats, ∃ stats',
      (reduceDirty.reduceChildren fuel cs.length cs stats).eval V.answer =
        (.ok (cs.map fun c => (reduced V c).field), cs.map (reduced V), stats') ∧
      stats'.changedPaths = stats.changedPaths
  | [], _, stats => ⟨stats, by rw [reduceDirty.reduceChildren]; rfl, rfl⟩
  | c :: cs, h, stats => by
    obtain ⟨st₁, hc, hst₁⟩ := h c (.head _) stats
    obtain ⟨st₂, hcs, hst₂⟩ :=
      eval_reduceChildren cs (List.forall_mem_cons.1 h).2 st₁
    refine ⟨st₂, ?_, hst₂.trans hst₁⟩
    rw [List.length_cons, reduceDirty.reduceChildren]
    simp only [Prog.eval_bind, hc, hcs, Prog.eval_pure]
    rfl

theorem computes_of_plain (fuel : ℕ) (V : View ι H) (n : ProofNode ι H) (h : Plain V n) :
    Computes fuel V n := by
  induction n using Rose.induct with
  | node info cs ih =>
    intro stats
    have hsub : ∀ c ∈ cs, Computes fuel V c := fun c hc => ih c hc fun i hi =>
      h i (by rw [Rose.labels_node]; exact List.mem_cons_of_mem _ (List.mem_flatMap.2 ⟨c, hc, hi⟩))
    have hplain := h info (by rw [Rose.labels_node]; exact List.mem_cons_self)
    rw [reduceDirty]
    split
    · rename_i v hd hc
      refine ⟨{ stats with cacheHits := stats.cacheHits + 1 }, ?_, rfl⟩
      rw [reduced_of_clean V hd hc, Prog.eval_pure, ProofNode.cached, Rose.label_node, hc]
      rfl
    · rename_i hmiss
      have hvisit : info.dirty = true ∨ info.cachedValue = none := by
        cases hd : info.dirty with
        | true => exact Or.inl rfl
        | false =>
          cases hc : info.cachedValue with
          | none => exact Or.inr rfl
          | some v => exact (hmiss v hd hc).elim
      simp only [Prog.eval_bind, eval_refresh]
      cases he : (info.refreshed V).expr with
      | eConst v =>
        refine ⟨{ stats with cacheMisses := stats.cacheMisses + 1 }, ?_, rfl⟩
        rw [reduced_of_eConst V hvisit he, arity_eConst, eval_reduceChildren_zero]
        rfl
      | eCompose hs =>
        obtain ⟨st, hcs, hst⟩ := eval_reduceChildren cs hsub
          { stats with cacheMisses := stats.cacheMisses + 1 }
        refine ⟨st, ?_, hst⟩
        rw [reduced_of_eCompose V hvisit he, arity_eCompose, hcs]
        rfl
      | _ => rw [he] at hplain; exact hplain.elim

/-! ### Incremental reduction -/

/-- The paths whose current atom is another than that of the vector. -/
def MaterializedProof.changed (V : View ι H) (proof : MaterializedProof ι H) : List Str :=
  (proof.versionVector.entries.filter V.changed).map (·.1)

/-- The tree as a reduction marks it. -/
def MaterializedProof.marked (V : View ι H) (proof : MaterializedProof ι H) : ProofNode ι H :=
  proof.rootNode.marked proof.pathToNode (proof.changed V)

/-- The version vector after a reduction. -/
def updated (V : View ι H) (vv : VersionVector H) (paths : List Str) : VersionVector H :=
  paths.foldl (fun vv path =>
    match V.currentHash path with
    | some h => vv.insert path h
    | none => vv) vv

omit [Inhabited ι] in
theorem eval_updateVector (V : View ι H) : ∀ (paths : List Str) (vv : VersionVector H),
    (updateVector paths vv : StoreProg ι H _).eval V.answer = updated V vv paths
  | [], _ => rfl
  | path :: paths, vv => by
    rw [updateVector, updated, List.foldl_cons]
    simp only [Prog.eval_bind, Prog.eval_ask, View.answer_getCurrentHash]
    cases V.currentHash path with
    | none => exact eval_updateVector V paths vv
    | some h => exact eval_updateVector V paths (vv.insert path h)

omit [Inhabited ι] in
theorem mem_changed {p : Str} :
    p ∈ proof.changed V ↔ ∃ h, proof.versionVector.lookup p = some h ∧ V.currentHash p ≠ some h := by
  simp only [MaterializedProof.changed, List.mem_map, List.mem_filter, View.changed,
    decide_eq_true_eq, GoMap.lookup_eq_some]
  constructor
  · rintro ⟨⟨q, h⟩, ⟨hmem, hne⟩, rfl⟩
    exact ⟨h, hmem, hne⟩
  · rintro ⟨h, hmem, hne⟩
    exact ⟨⟨p, h⟩, ⟨hmem, hne⟩, rfl⟩

omit [Inhabited ι] [DecidableEq H] in
theorem lookup_updated (V : View ι H) (p : Str) : ∀ (paths : List Str) (vv : VersionVector H),
    (updated V vv paths).lookup p =
      if p ∈ paths then (V.currentHash p).or (vv.lookup p) else vv.lookup p
  | [], vv => by simp [updated]
  | path :: paths, vv => by
    rw [updated, List.foldl_cons, ← updated, lookup_updated V p paths]
    cases hc : V.currentHash path with
    | none =>
      by_cases hp : p = path
      · subst hp
        simp [hc]
      · simp [hp]
    | some h =>
      simp only [GoMap.lookup_insert]
      by_cases hp : p = path
      · subst hp
        simp [hc]
      · simp [hp]

def MaterializedProof.after (V : View ι H) (proof : MaterializedProof ι H) (stats : ReduceStats) :
    MaterializedProof ι H :=
  { proof with
    value := (reduced V (proof.marked V)).cached
    rootNode := reduced V (proof.marked V)
    versionVector := updated V proof.versionVector (proof.changed V)
    reduceStats := stats }

omit [Inhabited ι] in
theorem changed_eq_nil_iff (V : View ι H) (proof : MaterializedProof ι H) :
    proof.changed V = [] ↔ (proof.versionVector.entries.all fun e => !V.changed e) = true := by
  simp [MaterializedProof.changed, List.filter_eq_nil_iff]

theorem eval_reduceChanged (haddr : (proof.rootNode.labels.map (·.addr)).Nodup)
    (hplain : Plain V (proof.marked V)) (fuel : ℕ) :
    ∃ stats, stats.changedPaths = (proof.changed V).length ∧ (reduceChanged fuel proof).eval V.answer =
        (.ok (reduced V (proof.marked V)).cached, proof.after V stats) := by
  obtain ⟨stats, hred, hstats⟩ :=
    computes_of_plain fuel V (proof.marked V) hplain ⟨(proof.changed V).length, 0, 0⟩
  have hchanged : V.answer ⟨.inner, .findChangedPaths proof.versionVector⟩ = proof.changed V := rfl
  refine ⟨stats, hstats, ?_⟩
  unfold reduceChanged
  simp only [Prog.eval_bind, Prog.eval_ask, hchanged, propagateChanges_resetDirty haddr]
  rw [show proof.rootNode.marked proof.pathToNode (proof.changed V) = proof.marked V from rfl, hred]
  simp only [Prog.eval_bind, eval_updateVector, Prog.eval_pure]
  rfl

/-- **`ReduceIncremental`**: the fast path, or the reduction of the marked tree. -/
theorem eval_reduceIncremental (haddr : (proof.rootNode.labels.map (·.addr)).Nodup)
    (hplain : Plain V (proof.marked V)) (fuel : ℕ) :
    (proof.changed V = [] ∧ (reduceIncremental fuel proof).eval V.answer =
        (.ok proof.value, { proof with reduceStats := ⟨0, 0, 0⟩ })) ∨
      (proof.changed V ≠ [] ∧ ∃ stats, stats.changedPaths = (proof.changed V).length ∧
        (reduceIncremental fuel proof).eval V.answer =
          (.ok (reduced V (proof.marked V)).cached, proof.after V stats)) := by
  have hverify := changed_eq_nil_iff V proof
  unfold reduceIncremental
  simp only [Prog.eval_bind, Prog.eval_ask, View.answer_verifyVersionVector]
  cases hall : (proof.versionVector.entries.all fun e => !V.changed e) with
  | true => exact Or.inl ⟨hverify.2 hall, rfl⟩
  | false =>
    refine Or.inr ⟨fun h => ?_, eval_reduceChanged haddr hplain fuel⟩
    rw [hverify.1 h] at hall
    cases hall

end Wavicle.Engine
