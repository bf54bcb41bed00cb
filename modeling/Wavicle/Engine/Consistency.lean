import Wavicle.Engine.Reduction

/-! # Consistent trees

In a consistent tree every node caches the value of its own expression over what its children cache.

* `Consistent`, and `Kept` for a proof; `consistent_reduced`: a reduction keeps it.
* `cached_reduced`: the value of a marked tree is spelled out by the expressions of its nodes. -/

namespace Wavicle.Engine

open Lib Wavicle.Core Storage Rose NodeInfo

variable {ι H : Type} [Inhabited ι]

/-- The value of an expression over the cached values of the children. -/
def ownValue (e : Expr ι H) (cs : List (ProofNode ι H)) : Value ι :=
  match e with
  | .eConst v => v
  | _ => newRecord (cs.map ProofNode.field)

@[simp] theorem ownValue_eConst (v : Value ι) (cs : List (ProofNode ι H)) :
    ownValue (.eConst v) cs = v := rfl

@[simp] theorem ownValue_eCompose (hs : List H) (cs : List (ProofNode ι H)) :
    ownValue (.eCompose hs) cs = newRecord (cs.map ProofNode.field) := rfl

/-- Every node is a constant or a composite and caches its own value. -/
inductive Consistent : ProofNode ι H → Prop where
  | node (info : NodeInfo ι H) (cs : List (ProofNode ι H)) (below : ∀ c ∈ cs, Consistent c)
      (plain : IsPlain info.expr) (own : info.cachedValue = some (ownValue info.expr cs)) :
      Consistent (.node info cs)

variable {cs : List (ProofNode ι H)} {info : NodeInfo ι H} {V : View ι H}
  {proof : MaterializedProof ι H}

theorem Consistent.cached (h : Consistent (.node info cs)) :
    ProofNode.cached (.node info cs) = ownValue info.expr cs := by
  cases h with
  | node _ _ _ _ own => rw [ProofNode.cached, label_node, own, Option.getD_some]

def NodeInfo.key (info : NodeInfo ι H) : ℕ × Str := (info.addr, info.sourcePath)

/-! ### Marks -/

omit [Inhabited ι] in
@[simp] theorem field_resetDirty : ∀ c : ProofNode ι H, c.resetDirty.field = c.field
  | .node info cs => by rw [ProofNode.resetDirty, map_node]; rfl

omit [Inhabited ι] in
theorem field_markWhere (A : NodeInfo ι H → Bool) (c : ProofNode ι H) :
    ProofNode.field (c.markWhere A (·.setDirty true)) = c.field := by
  unfold ProofNode.field ProofNode.cached
  rw [label_markWhere]
  split_ifs <;> rfl

theorem consistent_resetDirty (t : ProofNode ι H) (h : Consistent t) : Consistent t.resetDirty := by
  induction t using induct with
  | node info cs ih =>
    cases h with
    | node _ _ below plain own =>
      rw [ProofNode.resetDirty, map_node]
      refine .node _ _ (fun c hc => ?_) plain ?_
      · obtain ⟨d, hd, rfl⟩ := List.mem_map.1 hc
        exact ih d hd (below d hd)
      · change info.cachedValue = some (ownValue info.expr (cs.map ProofNode.resetDirty))
        rw [own]
        unfold ownValue
        simp only [List.map_map, Function.comp_def, field_resetDirty]

theorem consistent_markWhere (A : NodeInfo ι H → Bool) (t : ProofNode ι H) (h : Consistent t) :
    Consistent (t.markWhere A (·.setDirty true)) := by
  induction t using induct with
  | node info cs ih =>
    cases h with
    | node _ _ below plain own =>
      rw [markWhere_node]
      have hexpr : ∀ b : Bool, (if b = true then info.setDirty true else info).expr = info.expr ∧
          (if b = true then info.setDirty true else info).cachedValue = info.cachedValue := by
        intro b
        cases b <;> exact ⟨rfl, rfl⟩
      refine .node _ _ (fun c hc => ?_) ?_ ?_
      · obtain ⟨d, hd, rfl⟩ := List.mem_map.1 hc
        exact ih d hd (below d hd)
      · rw [(hexpr _).1]
        exact plain
      · rw [(hexpr _).1, (hexpr _).2, own]
        unfold ownValue
        simp only [List.map_map, Function.comp_def, field_markWhere]

theorem consistent_marked {t : ProofNode ι H} (h : Consistent t) (pathToNode : GoMap Str ℕ)
    (changed : List Str) : Consistent (t.marked pathToNode changed) :=
  consistent_markWhere _ _ (consistent_resetDirty t h)

omit [Inhabited ι] in
theorem map_key_marked (t : ProofNode ι H) (pathToNode : GoMap Str ℕ) (changed : List Str) :
    (t.marked pathToNode changed).map key = t.map key := by
  have hkey : ∀ info : NodeInfo ι H, (info.setDirty true).key = info.key := fun _ => rfl
  rw [ProofNode.marked, map_markWhere _ hkey, ProofNode.resetDirty, map_map]
  rfl

/-! ### Reductions -/

omit [Inhabited ι] in
theorem key_refreshed (V : View ι H) (info : NodeInfo ι H) : (info.refreshed V).key = info.key := by
  unfold refreshed
  split_ifs
  · split <;> rfl
  · rfl

theorem reduced_cases (V : View ι H) (info : NodeInfo ι H) (cs : List (ProofNode ι H))
    (hplain : IsPlain (info.refreshed V).expr) : (info.dirty = false ∧ (∃ v, info.cachedValue = some v) ∧
        reduced V (.node info cs) = .node info cs) ∨ ((info.dirty = true ∨ info.cachedValue = none) ∧
        ∃ v, (info.refreshed V).expr = .eConst v ∧
          reduced V (.node info cs) = .node ((info.refreshed V).settled v) cs) ∨
      ((info.dirty = true ∨ info.cachedValue = none) ∧ ∃ hs, (info.refreshed V).expr = .eCompose hs ∧
          reduced V (.node info cs) =
            .node ((info.refreshed V).settled (newRecord (cs.map fun c => (reduced V c).field)))
              (cs.map (reduced V))) := by
  have hcase : (info.dirty = false ∧ ∃ v, info.cachedValue = some v) ∨
      (info.dirty = true ∨ info.cachedValue = none) := by
    cases info.dirty <;> cases info.cachedValue <;> simp
  rcases hcase with ⟨hd, v, hv⟩ | hvisit
  · exact Or.inl ⟨hd, ⟨v, hv⟩, reduced_of_clean V hd hv cs⟩
  · cases he : (info.refreshed V).expr with
    | eConst v => exact Or.inr (Or.inl ⟨hvisit, v, rfl, reduced_of_eConst V hvisit he cs⟩)
    | eCompose hs => exact Or.inr (Or.inr ⟨hvisit, hs, rfl, reduced_of_eCompose V hvisit he cs⟩)
    | _ => rw [he] at hplain; exact hplain.elim

variable [DecidableEq H]

omit [Inhabited ι] [DecidableEq H] in
theorem Plain.label (h : Plain V (.node info cs)) : IsPlain (info.refreshed V).expr :=
  h info (by rw [labels_node]; exact List.mem_cons_self)

omit [Inhabited ι] [DecidableEq H] in
theorem Plain.child (h : Plain V (.node info cs)) {c : ProofNode ι H} (hc : c ∈ cs) :
    Plain V c := fun i hi =>
  h i (by rw [labels_node]; exact List.mem_cons_of_mem _ (List.mem_flatMap.2 ⟨c, hc, hi⟩))

omit [DecidableEq H] in
theorem map_key_reduced (V : View ι H) (n : ProofNode ι H) (h : Plain V n) :
    (reduced V n).map key = n.map key := by
  induction n using induct with
  | node info cs ih =>
    rcases reduced_cases V info cs h.label with ⟨-, -, hr⟩ | ⟨-, v, -, hr⟩ | ⟨-, hs, -, hr⟩
    · rw [hr]
    · rw [hr, map_node, map_node]
      congr 1
      exact key_refreshed V info
    · rw [hr, map_node, map_node, List.map_map]
      congr 1
      · exact key_refreshed V info
      · exact List.map_congr_left fun c hc => ih c hc (h.child hc)

omit [DecidableEq H] in
/-- **A reduction keeps a tree consistent**, whatever the store shows. -/
theorem consistent_reduced (V : View ι H) (n : ProofNode ι H) (hn : Consistent n)
    (h : Plain V n) : Consistent (reduced V n) := by
  induction n using induct with
  | node info cs ih =>
    cases hn with
    | node _ _ below plain own =>
      rcases reduced_cases V info cs h.label with ⟨-, -, hr⟩ | ⟨-, v, he, hr⟩ | ⟨-, hs, he, hr⟩
      · rw [hr]
        exact .node info cs below plain own
      · rw [hr]
        refine .node _ _ below h.label ?_
        change some v = some (ownValue (info.refreshed V).expr cs)
        rw [he, ownValue_eConst]
      · rw [hr]
        refine .node _ _ (fun c hc => ?_) h.label ?_
        · obtain ⟨d, hd, rfl⟩ := List.mem_map.1 hc
          exact ih d hd (below d hd) (h.child hd)
        · change some _ = some (ownValue (info.refreshed V).expr _)
          rw [he, ownValue_eCompose, List.map_map]
          rfl

/-! ### Marked trees -/

omit [Inhabited ι] [DecidableEq H] in
theorem upClosed_marked (t : ProofNode ι H) (pathToNode : GoMap Str ℕ) (changed : List Str) :
    Rose.UpClosed (·.dirty) (t.marked pathToNode changed) := by
  refine upClosed_markWhere (fun _ => rfl) _ _ (upClosed_of_unmarked _ fun info hinfo => ?_)
  rw [ProofNode.resetDirty, labels_map] at hinfo
  obtain ⟨i, -, rfl⟩ := List.mem_map.1 hinfo
  rfl

omit [DecidableEq H] in
theorem sourcePath_reduced (V : View ι H) (n : ProofNode ι H) :
    (reduced V n).label.sourcePath = n.label.sourcePath := by
  cases n with
  | node info cs =>
    have hsp : (info.refreshed V).sourcePath = info.sourcePath :=
      congrArg Prod.snd (key_refreshed V info)
    rw [reduced]
    split
    · rfl
    · split <;> exact hsp

omit [DecidableEq H] in
/-- **The value of a marked tree** is spelled out by the expressions that its nodes have when they are
read again. Below a clean node everything is clean. -/
theorem cached_reduced (hn : Consistent (.node info cs))
    (hup : Rose.UpClosed (·.dirty) (.node info cs)) (hplain : Plain V (.node info cs)) :
    (reduced V (.node info cs)).cached = ownValue (info.refreshed V).expr (cs.map (reduced V)) := by
  rcases reduced_cases V info cs hplain.label with ⟨hd, -, hr⟩ | ⟨-, v, he, hr⟩ | ⟨-, hs, he, hr⟩
  · have hclean : cs.map (reduced V) = cs := by
      cases hn with
      | node _ _ below _ _ =>
        cases hup with
        | node _ _ _ up =>
          refine (List.map_congr_left fun c hc => ?_).trans (List.map_id cs)
          have hcd : c.label.dirty = false := by
            rw [← Bool.not_eq_true]
            intro hdirty
            rw [up c hc hdirty] at hd
            cases hd
          have hcons := below c hc
          cases hcons with
          | node i ds _ _ own => exact reduced_of_clean V hcd own ds
    rw [hr, refreshed_of_clean V hd, hclean, hn.cached]
  · rw [hr, he, ownValue_eConst]
    rfl
  · rw [hr, he, ownValue_eCompose, List.map_map]
    rfl

/-! ### Proofs -/

/-- What a proof keeps under every reduction. -/
structure Kept (proof : MaterializedProof ι H) : Prop where
  addr_nodup : (proof.rootNode.labels.map (·.addr)).Nodup
  consistent : Consistent proof.rootNode
  value : proof.value = proof.rootNode.cached

section

omit [Inhabited ι] [DecidableEq H]

theorem map_addr_of_map_key {t t' : ProofNode ι H} (h : t.map key = t'.map key) :
    t.labels.map (·.addr) = t'.labels.map (·.addr) := by
  have := congrArg (fun r : Rose (ℕ × Str) => r.labels.map Prod.fst) h
  rwa [labels_map, labels_map, List.map_map, List.map_map] at this

theorem map_path_of_map_key {t t' : ProofNode ι H} (h : t.map key = t'.map key) :
    t.labels.map (·.sourcePath) = t'.labels.map (·.sourcePath) := by
  have := congrArg (fun r : Rose (ℕ × Str) => r.labels.map Prod.snd) h
  rwa [labels_map, labels_map, List.map_map, List.map_map] at this

theorem map_path_eq_of_map_key {t t' : ProofNode ι H}
    (h : t.map key = t'.map key) : t.map (·.sourcePath) = t'.map (·.sourcePath) := by
  have := congrArg (map Prod.snd) h
  rwa [map_map, map_map] at this

end

theorem map_key_after (V : View ι H) (hplain : Plain V (proof.marked V)) :
    (reduced V (proof.marked V)).map key = proof.rootNode.map key := by
  rw [map_key_reduced V _ hplain, MaterializedProof.marked, map_key_marked]

theorem Kept.after (h : Kept proof) (hplain : Plain V (proof.marked V)) (stats : ReduceStats) :
    Kept (proof.after V stats) where
  addr_nodup := by
    change ((reduced V (proof.marked V)).labels.map (·.addr)).Nodup
    rw [map_addr_of_map_key (map_key_after V hplain)]
    exact h.addr_nodup
  consistent := consistent_reduced V _ (consistent_marked h.consistent _ _) hplain
  value := rfl

omit [DecidableEq H] in
theorem reduced_marked_nil (V : View ι H) {t : ProofNode ι H} (ht : Consistent t)
    (pathToNode : GoMap Str ℕ) : (reduced V (t.marked pathToNode [])).cached = t.cached := by
  have hmarked : t.marked pathToNode [] = t.resetDirty :=
    markWhere_of_none _ _ fun _ _ => rfl
  rw [hmarked]
  cases ht with
  | node info cs below plain own =>
    have hclean : (info.setDirty false).cachedValue = some (ownValue info.expr cs) := own
    rw [ProofNode.resetDirty, map_node, reduced_of_clean V rfl hclean]
    rfl

theorem Kept.eval_fst (h : Kept proof) (hplain : Plain V (proof.marked V)) (fuel : ℕ) :
    ((reduceIncremental fuel proof).eval V.answer).1 = .ok (reduced V (proof.marked V)).cached := by
  rcases eval_reduceIncremental h.addr_nodup hplain fuel with ⟨hnil, heval⟩ | ⟨-, stats, -, heval⟩
  · rw [heval, MaterializedProof.marked, hnil, reduced_marked_nil V h.consistent, h.value]
  · rw [heval]

theorem Kept.eval_snd (h : Kept proof) (hplain : Plain V (proof.marked V)) (fuel : ℕ) :
    Kept ((reduceIncremental fuel proof).eval V.answer).2 := by
  rcases eval_reduceIncremental h.addr_nodup hplain fuel with ⟨-, heval⟩ | ⟨-, stats, -, heval⟩
  · rw [heval]
    exact ⟨h.addr_nodup, h.consistent, h.value⟩
  · rw [heval]
    exact h.after hplain stats

end Wavicle.Engine
