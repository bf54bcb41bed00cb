import Wavicle.Engine.Races
import Wavicle.Engine.ProofCache

/-! # Proofs of constants

In a store whose atoms are all constants, a proof is one node.

* `CachedProof`: a proof of a path as it is cached, of an atom of the log.
* `CachedProof.eval_reduce`: a reduction gives the current constant, and keeps the proof such a proof. -/

namespace Wavicle.Engine

open Lib Wavicle.Core Storage

variable {ι H : Type} [Inhabited ι] [DecidableEq H]

/-- A proof of the path as it is cached, when all atoms of the log are constants. -/
inductive CachedProof (log : List (CausalAtom ι H)) : Str → MaterializedProof ι H → Prop where
  | tracked {p : Str} {proof : MaterializedProof ι H} {info : NodeInfo ι H} {b : CausalAtom ι H}
      (ne : p ≠ []) (leaf : Leaf p b.hash proof info) (minted : b ∈ log)
      (expr : b.expr = .eConst proof.value) : CachedProof log p proof
  | untracked {proof : MaterializedProof ι H} (vector : proof.versionVector = ∅) :
      CachedProof log [] proof

variable {proof : MaterializedProof ι H}

omit [Inhabited ι] [DecidableEq H] in
theorem CachedProof.mono {log log' : List (CausalAtom ι H)} (hlog : log ⊆ log') {p : Str} :
    CachedProof log p proof → CachedProof log' p proof
  | .tracked ne leaf minted expr => .tracked ne leaf (hlog minted) expr
  | .untracked vector => .untracked vector

/-- All current atoms are constants of the log, under their own paths. -/
structure ConstView (log : List (CausalAtom ι H)) (V : View ι H) : Prop where
  paths : V.PathsAgree
  logged : ∀ p a, V.current p = some a → a ∈ log
  const : ∀ p a, V.current p = some a → ∃ v, a.expr = .eConst v

variable {log : List (CausalAtom ι H)} {V : View ι H} {p : Str} {a : CausalAtom ι H} {v : Value ι}

/-! ### Composing -/

def constProof (p : Str) (v : Value ι) (h : H) : MaterializedProof ι H :=
  { leafProof p v h h with
    versionVector := if p = [] then ∅ else (∅ : VersionVector H).insert p h }

omit [Inhabited ι] [DecidableEq H] in
theorem captureNodes_nil (addr : ℕ) (vv : VersionVector H) :
    (captureNodes ((∅ : GoMap Str ℕ).insert [] addr).keys vv : StoreProg ι H (VersionVector H)) =
      pure vv := by
  have hkeys : ((∅ : GoMap Str ℕ).insert [] addr).keys = [[]] := rfl
  rw [hkeys, captureNodes, if_neg (by simp), captureNodes]

theorem eval_composeProof_const (ha : V.current p = some a) (hpath : a.path = p)
    (he : a.expr = .eConst v) (fuel : ℕ) :
    (composeProof (fuel + 1) p).eval V.answer = .ok (constProof p v a.hash) := by
  subst hpath
  unfold composeProof
  simp only [buildProofNode, Prog.eval_bind, Prog.eval_ask, View.answer_getCurrent, ha, he,
    Prog.eval_pure, captureVersionVector]
  by_cases hp : a.path = []
  · rw [hp, if_neg (by simp), Prog.eval_pure, captureNodes_nil, Prog.eval_pure,
      reduceDirty_eConst _ _ rfl rfl rfl]
    rfl
  · simp only [ne_eq, hp, not_false_eq_true, if_true, Prog.eval_bind, Prog.eval_ask,
      View.answer_getCurrent, ha, Prog.eval_pure, captureNodes_recorded]
    rw [reduceDirty_eConst _ _ rfl rfl rfl, constProof, if_neg hp]
    rfl

theorem cachedProof_composed (hV : ConstView log V) {fuel : ℕ}
    (h : (composeProof fuel p).eval V.answer = .ok proof) : CachedProof log p proof := by
  cases ha : V.current p with
  | none =>
    unfold composeProof at h
    simp only [Prog.eval_bind, Prog.eval_ask, View.answer_getCurrent, ha, Prog.eval_pure] at h
    cases h
  | some a =>
    cases fuel with
    | zero =>
      unfold composeProof at h
      simp only [buildProofNode, Prog.eval_bind, Prog.eval_ask, View.answer_getCurrent, ha,
        Prog.eval_pure] at h
      cases h
    | succ fuel =>
      obtain ⟨v, hv⟩ := hV.const p a ha
      rw [eval_composeProof_const ha (hV.paths p a ha) hv] at h
      obtain rfl := Except.ok.inj h
      by_cases hp : p = []
      · subst hp
        exact .untracked rfl
      · have hleaf := leaf_leafProof p v a.hash a.hash
        have hproof : constProof p v a.hash = leafProof p v a.hash a.hash := by
          rw [constProof, if_neg hp]
          rfl
        rw [hproof]
        exact .tracked hp hleaf (hV.logged p a ha) hv

/-! ### Reducing -/

def rereadValue (V : View ι H) (p : Str) (old : Value ι) : Value ι :=
  match (V.current p).bind (·.expr.constValue) with
  | some v => v
  | none => old

omit [Inhabited ι] [DecidableEq H] in
theorem reread_const (hV : ConstView log V) (hp : p ≠ []) (old : Value ι) :
    reread V p (.eConst old) = .eConst (rereadValue V p old) := by
  unfold reread rereadValue
  cases ha : V.current p with
  | none => rfl
  | some a =>
    obtain ⟨v, hv⟩ := hV.const p a ha
    simp [hp, hv, Expr.constValue]

theorem eval_reduceIncremental_changed (hV : ConstView log V) (hp : p ≠ []) {info : NodeInfo ι H}
    {h : H} (hleaf : Leaf p h proof info) (hch : V.changed ⟨p, h⟩ = true) (fuel : ℕ) : ∃ proof' info',
      Leaf p ((V.currentHash p).getD h) proof' info' ∧ proof'.value = rereadValue V p proof.value ∧
      (reduceIncremental fuel proof).eval V.answer = (.ok (rereadValue V p proof.value), proof') := by
  have hentries : proof.versionVector.entries = [⟨p, h⟩] := by rw [hleaf.vector]; rfl
  have hchanged : proof.changed V = [p] := by
    rw [MaterializedProof.changed, hentries, List.filter_cons, if_pos hch]
    rfl
  have hhit : isHit proof.pathToNode [p] info = true := by simp [isHit, hleaf.index]
  have hmarked : proof.marked V = .node (info.setDirty true) [] := by
    rw [MaterializedProof.marked, hleaf.root, hchanged, marked_node, Rose.labels_node]
    simp [hhit]
  have hexpr : ((info.setDirty true).refreshed V).expr = .eConst (rereadValue V p proof.value) := by
    rw [expr_refreshed V rfl, ← reread_const hV hp]
    exact congrArg₂ (reread V) hleaf.path hleaf.expr
  have hreduced : reduced V (proof.marked V) =
      .node (((info.setDirty true).refreshed V).settled (rereadValue V p proof.value)) [] := by
    rw [hmarked, reduced_of_eConst V (Or.inl rfl) hexpr]
  have hplain : Plain V (proof.marked V) := by
    intro info' hinfo'
    rw [hmarked, Rose.labels_node] at hinfo'
    obtain rfl := List.mem_singleton.1 hinfo'
    rw [hexpr]
    trivial
  have hupdated : updated V proof.versionVector [p] =
      (∅ : VersionVector H).insert p ((V.currentHash p).getD h) := by
    rw [hleaf.vector, updated, List.foldl_cons, List.foldl_nil]
    cases V.currentHash p with
    | none => rfl
    | some h' => exact AList.insert_insert ..
  have hkey := key_refreshed V (info.setDirty true)
  rcases eval_reduceIncremental (by rw [hleaf.root, Rose.labels_node]; simp) hplain fuel with
    ⟨hnil, -⟩ | ⟨-, stats, -, heval⟩
  · rw [hchanged] at hnil
    cases hnil
  · refine ⟨_, _, hleaf.settled (congrArg Prod.fst hkey) ((congrArg Prod.snd hkey).trans hleaf.path)
      hexpr stats, rfl, ?_⟩
    rw [heval, MaterializedProof.after, hreduced, hchanged, hupdated]
    rfl

theorem eval_reduceIncremental_unchanged
    (h : ∀ e ∈ proof.versionVector.entries, V.changed e = false) (fuel : ℕ) :
    (reduceIncremental fuel proof).eval V.answer =
      (.ok proof.value, { proof with reduceStats := ⟨0, 0, 0⟩ }) := by
  have hall : (proof.versionVector.entries.all fun e => !V.changed e) = true :=
    List.all_eq_true.2 fun e he => by rw [h e he]; rfl
  unfold reduceIncremental
  simp only [Prog.eval_bind, Prog.eval_ask, View.answer_verifyVersionVector, hall]
  rfl

omit [Inhabited ι] in
theorem Leaf.unchanged {h : H} {info : NodeInfo ι H} (hleaf : Leaf p h proof info)
    (hch : V.changed ⟨p, h⟩ = false) : ∀ e ∈ proof.versionVector.entries, V.changed e = false := by
  intro e he
  rw [hleaf.vector] at he
  obtain rfl : e = ⟨p, h⟩ := List.mem_singleton.1 he
  exact hch

theorem CachedProof.reduced (hV : ConstView log V) (h : CachedProof log p proof) (fuel : ℕ) :
    CachedProof log p ((reduceIncremental fuel proof).eval V.answer).2 := by
  cases h with
  | untracked vector =>
    rw [eval_reduceIncremental_unchanged (by rw [vector]; exact List.forall_mem_nil _)]
    exact .untracked vector
  | @tracked _ _ info b ne leaf minted expr =>
    cases hch : V.changed ⟨p, b.hash⟩ with
    | false =>
      rw [eval_reduceIncremental_unchanged (leaf.unchanged hch)]
      exact .tracked ne ⟨leaf.root, leaf.path, leaf.expr, leaf.cached, leaf.index, leaf.vector⟩ minted
        expr
    | true =>
      obtain ⟨proof', info', hleaf, hvalue, heval⟩ :=
        eval_reduceIncremental_changed hV ne leaf hch fuel
      rw [heval]
      unfold rereadValue at hvalue
      unfold View.currentHash at hleaf
      cases ha : V.current p with
      | none =>
        rw [ha] at hleaf hvalue
        refine .tracked ne hleaf minted ?_
        rw [hvalue, expr]
        rfl
      | some a =>
        obtain ⟨v, hv⟩ := hV.const p a ha
        rw [ha] at hleaf hvalue
        refine .tracked ne hleaf (hV.logged p a ha) ?_
        rw [hvalue, hv]
        simp [hv, Expr.constValue]

theorem CachedProof.eval_reread (hV : ConstView log V) (hd : (log.map (·.hash)).Nodup)
    (h : CachedProof log p proof) (hp : p ≠ []) (fuel : ℕ) :
    ((reduceIncremental fuel proof).eval V.answer).1 = .ok (rereadValue V p proof.value) := by
  cases h with
  | untracked => exact absurd rfl hp
  | @tracked _ _ info b ne leaf minted expr =>
    cases hch : V.changed ⟨p, b.hash⟩ with
    | false =>
      -- the hash is that of the current atom, so the value is the one it was recorded with
      obtain ⟨a, ha, hhash⟩ := View.changed_eq_false_iff.1 hch
      obtain rfl := List.inj_on_of_nodup_map hd (hV.logged p a ha) minted hhash
      rw [eval_reduceIncremental_unchanged (leaf.unchanged hch)]
      simp [rereadValue, ha, expr, Expr.constValue]
    | true =>
      obtain ⟨proof', info', -, -, heval⟩ := eval_reduceIncremental_changed hV ne leaf hch fuel
      rw [heval]

/-- **A cached proof gives the current value** of a path that is not empty. -/
theorem CachedProof.eval_reduce (hV : ConstView log V) (hd : (log.map (·.hash)).Nodup)
    (h : CachedProof log p proof) (hp : p ≠ []) (ha : V.current p = some a)
    (he : a.expr = .eConst v) (fuel : ℕ) : ((reduceIncremental fuel proof).eval V.answer).1 = .ok v := by
  rw [h.eval_reread hV hd hp]
  simp [rereadValue, ha, he, Expr.constValue]

theorem CachedProof.eval_reduce_nil (h : CachedProof log [] proof) (fuel : ℕ) :
    ((reduceIncremental fuel proof).eval V.answer).1 = .ok proof.value := by
  cases h with
  | untracked vector =>
    rw [eval_reduceIncremental_unchanged (by rw [vector]; exact List.forall_mem_nil _)]
  | tracked ne => exact absurd rfl ne

/-! ### Changes in place -/

omit [DecidableEq H] in
theorem Leaf.change {h : H} {proof : MaterializedProof Ref H} {info : NodeInfo Ref H}
    (hleaf : Leaf p h proof info) (c : Change) : Leaf p h (proof.change c) (info.change c) where
  root := by
    unfold MaterializedProof.change
    rw [hleaf.root]
    exact Rose.map_node ..
  path := hleaf.path
  expr := by
    unfold NodeInfo.change
    rw [hleaf.expr]
    rfl
  cached := by
    unfold NodeInfo.change
    rw [hleaf.cached]
    rfl
  index := hleaf.index
  vector := hleaf.vector

omit [DecidableEq H] in
theorem CachedProof.change {log : List (CausalAtom Ref H)} {proof : MaterializedProof Ref H}
    (h : CachedProof log p proof) (c : Change) :
    CachedProof (log.map (CausalAtom.change c)) p (proof.change c) := by
  cases h with
  | untracked vector => exact .untracked vector
  | @tracked _ _ info b ne leaf minted expr =>
    have hleaf : Leaf p (b.change c).hash (proof.change c) (info.change c) := leaf.change c
    refine .tracked ne hleaf (List.mem_map_of_mem minted) ?_
    change b.expr.change c = _
    rw [expr]
    rfl

end Wavicle.Engine
