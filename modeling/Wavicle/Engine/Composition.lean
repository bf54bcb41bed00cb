import Wavicle.Engine.Consistency

/-! # What a composition builds

The tree that `buildProofNode` makes mirrors the store's view: each node has the current expression of its path,
and the children of a composite are the paths of its hashes that the store can resolve. -/

namespace Wavicle.Engine

open Lib Wavicle.Core Storage Prog List

variable {ι H : Type} [Inhabited ι]

/-- The path under which a hash is followed: that of its atom, if it has a current atom. -/
def childPath (V : View ι H) (h : H) : Option Str :=
  (V.atom h).bind fun a => (V.current a.path).map fun _ => a.path

/-- The paths that a composite shows. -/
def childPaths (V : View ι H) : Expr ι H → List Str
  | .eCompose hs => hs.filterMap (childPath V)
  | _ => []

/-- A tree as `buildProofNode` makes it from a view. -/
inductive FromView (V : View ι H) : ProofNode ι H → Prop where
  | node (info : NodeInfo ι H) (cs : List (ProofNode ι H)) (atom : CausalAtom ι H)
      (current : V.current info.sourcePath = some atom) (expr : info.expr = atom.expr)
      (hash : info.sourceHash = atom.hash) (fresh : info.cachedValue = none)
      (clean : info.dirty = false)
      (paths : cs.map (·.label.sourcePath) = childPaths V atom.expr)
      (below : ∀ c ∈ cs, FromView V c) : FromView V (.node info cs)

def indexed (m : GoMap Str ℕ) (l : List (NodeInfo ι H)) : GoMap Str ℕ :=
  l.foldl (fun m info => m.insert info.sourcePath info.addr) m

/-- The nodes that a builder has made take the next addresses, one after another. -/
structure Allocated (b b' : Builder) (l : List (NodeInfo ι H)) : Prop where
  addr : l.map (·.addr) = List.range' b.next l.length
  next : b'.next = b.next + l.length
  index : b'.pathIndex = indexed b.pathIndex l

section

omit [Inhabited ι]

theorem Allocated.nil (b : Builder) : Allocated b b ([] : List (NodeInfo ι H)) := ⟨rfl, rfl, rfl⟩

theorem Allocated.single (b : Builder) {info : NodeInfo ι H} (h : info.addr = b.next) :
    Allocated b ⟨b.next + 1, b.pathIndex.insert info.sourcePath b.next⟩ [info] :=
  ⟨by simp [h], rfl, by simp [indexed, h]⟩

theorem Allocated.append {b b₁ b₂ : Builder} {l₁ l₂ : List (NodeInfo ι H)}
    (h₁ : Allocated b b₁ l₁) (h₂ : Allocated b₁ b₂ l₂) : Allocated b b₂ (l₁ ++ l₂) where
  addr := by
    rw [map_append, h₁.addr, h₂.addr, h₁.next, length_append, ← List.range'_append_1]
  next := by rw [h₂.next, h₁.next, length_append, Nat.add_assoc]
  index := by rw [h₂.index, h₁.index, indexed, indexed, indexed, foldl_append]

end

variable [DecidableEq H]

/-- What `buildProofNode` returns on a path. -/
def Builds (V : View ι H) (build : Str → Builder → StoreProg ι H (Built ι H)) : Prop :=
  ∀ path b r b', (build path b).eval V.answer = (.ok r, b') →
    match r with
    | none => V.current path = none ∧ b' = b
    | some t => FromView V t ∧ t.label.sourcePath = path ∧ Allocated b b' t.labels

variable {V : View ι H} {path : Str} {proof : MaterializedProof ι H} {t : ProofNode ι H}

section

omit [Inhabited ι]

theorem eval_buildChildren_ok (build : Str → Builder → StoreProg ι H (Built ι H)) :
    ∀ (hs : List H) (_ : ∀ h ∈ hs, ∀ c, V.atom h = some c → ∀ b,
        ∃ t b', (build c.path b).eval V.answer = (.ok (some t), b')) (b : Builder),
      ∃ cs b', (buildChildren build hs b).eval V.answer = (.ok cs, b')
  | [], _, b => ⟨[], b, rfl⟩
  | h :: hs, hbuild, b => by
    have hrest := eval_buildChildren_ok build hs (forall_mem_cons.1 hbuild).2
    rw [buildChildren]
    simp only [eval_bind, eval_ask, View.answer_getAtom]
    cases hatom : V.atom h with
    | none => exact hrest b
    | some c =>
      obtain ⟨t, b₁, ht⟩ := hbuild h (.head _) c hatom b
      obtain ⟨cs, b₂, hcs⟩ := hrest b₁
      simp only [eval_bind, ht, hcs]
      exact ⟨_, _, rfl⟩

theorem buildChildren_spec {build : Str → Builder → StoreProg ι H (Built ι H)}
    (hbuild : Builds V build) : ∀ (hs : List H) (b : Builder) (cs : List (ProofNode ι H))
      (b' : Builder), (buildChildren build hs b).eval V.answer = (.ok cs, b') →
      cs.map (·.label.sourcePath) = hs.filterMap (childPath V) ∧ (∀ c ∈ cs, FromView V c) ∧
        Allocated b b' (cs.flatMap Rose.labels)
  | [], b, cs, b', h => by
    rw [buildChildren, eval_pure] at h
    obtain ⟨hcs, rfl⟩ := Prod.mk.inj h
    obtain rfl := Except.ok.inj hcs
    exact ⟨rfl, by simp, .nil b⟩
  | hash :: hs, b, cs, b', h => by
    rw [buildChildren] at h
    simp only [eval_bind, eval_ask, View.answer_getAtom] at h
    cases hatom : V.atom hash with
    | none =>
      rw [hatom] at h
      have hpath : childPath V hash = none := by rw [childPath, hatom]; rfl
      rw [filterMap_cons, hpath]
      exact buildChildren_spec hbuild hs b cs b' h
    | some child =>
      rw [hatom] at h
      simp only [eval_bind] at h
      obtain ⟨r, b₁, hr⟩ : ∃ r b₁, (build child.path b).eval V.answer = (r, b₁) := ⟨_, _, rfl⟩
      rw [hr] at h
      cases r with
      | error f =>
        obtain ⟨hbad, -⟩ := Prod.mk.inj h
        cases hbad
      | ok r =>
        simp only [eval_bind] at h
        obtain ⟨rs, b₂, hrs⟩ :
            ∃ rs b₂, (buildChildren build hs b₁).eval V.answer = (rs, b₂) := ⟨_, _, rfl⟩
        rw [hrs] at h
        cases rs with
        | error f =>
          obtain ⟨hbad, -⟩ := Prod.mk.inj h
          cases hbad
        | ok ds =>
          obtain ⟨hcs, rfl⟩ := Prod.mk.inj h
          obtain rfl := Except.ok.inj hcs
          obtain ⟨hpaths, hds, halloc⟩ := buildChildren_spec hbuild hs b₁ ds b₂ hrs
          have hone := hbuild child.path b r b₁ hr
          cases r with
          | none =>
            obtain ⟨hnone, rfl⟩ := hone
            have hpath : childPath V hash = none := by
              rw [childPath, hatom, Option.bind_some, hnone]
              rfl
            rw [filterMap_cons, hpath]
            exact ⟨hpaths, hds, halloc⟩
          | some t =>
            obtain ⟨hview, hlabel, halloc'⟩ := hone
            have hpath : childPath V hash = some child.path := by
              cases hview with
              | node info cs atom current =>
                rw [Rose.label_node] at hlabel
                rw [childPath, hatom, Option.bind_some, ← hlabel, current]
                rfl
            refine ⟨?_, ?_, ?_⟩
            · rw [filterMap_cons, hpath, ← hpaths, ← hlabel]
              rfl
            · intro c hc
              rcases mem_cons.1 hc with rfl | hc
              · exact hview
              · exact hds c hc
            · exact halloc'.append halloc

theorem buildProofNode_spec (V : View ι H) : ∀ fuel : ℕ, Builds V (buildProofNode fuel)
  | 0 => by
    intro path b r b' h
    rw [buildProofNode, eval_pure] at h
    obtain ⟨hbad, -⟩ := Prod.mk.inj h
    cases hbad
  | fuel + 1 => by
    intro path b r b' h
    rw [buildProofNode] at h
    simp only [eval_bind, eval_ask, View.answer_getCurrent] at h
    cases hcur : V.current path with
    | none =>
      rw [hcur] at h
      obtain ⟨hr, rfl⟩ := Prod.mk.inj h
      obtain rfl := Except.ok.inj hr
      exact ⟨rfl, rfl⟩
    | some atom =>
      rw [hcur] at h
      simp only at h
      split at h
      · rename_i hs he
        simp only [eval_bind] at h
        obtain ⟨rs, b₁, hrs⟩ : ∃ rs b₁, (buildChildren (buildProofNode fuel) hs
          ⟨b.next + 1, b.pathIndex.insert path b.next⟩).eval V.answer = (rs, b₁) := ⟨_, _, rfl⟩
        rw [hrs] at h
        cases rs with
        | error f =>
          obtain ⟨hbad, -⟩ := Prod.mk.inj h
          cases hbad
        | ok cs =>
          obtain ⟨hr, rfl⟩ := Prod.mk.inj h
          obtain rfl := Except.ok.inj hr
          obtain ⟨hpaths, hcs, halloc⟩ :=
            buildChildren_spec (buildProofNode_spec V fuel) hs _ cs b₁ hrs
          refine ⟨.node _ _ atom hcur rfl rfl rfl rfl (by rw [he]; exact hpaths) hcs, rfl, ?_⟩
          rw [Rose.labels_node]
          exact Allocated.append (.single b rfl) halloc
      · rename_i hne
        obtain ⟨hr, rfl⟩ := Prod.mk.inj h
        obtain rfl := Except.ok.inj hr
        have hnil : childPaths V atom.expr = [] := by
          cases he : atom.expr with
          | eCompose hs => exact (hne hs he).elim
          | _ => rfl
        refine ⟨.node _ _ atom hcur rfl rfl rfl rfl hnil.symm (by simp), rfl, ?_⟩
        rw [Rose.labels_node]
        exact Allocated.append (.single b rfl) (.nil _)

end

/-! ### The first reduction -/

omit [DecidableEq H] in
theorem FromView.consistent (n : ProofNode ι H) (hn : FromView V n) (h : Plain V n) :
    Consistent (reduced V n) := by
  induction n using Rose.induct with
  | node info cs ih =>
    cases hn with
    | node _ _ atom current expr hash fresh clean paths below =>
      rcases reduced_cases V info cs h.label with ⟨-, ⟨v, hv⟩, -⟩ | ⟨-, v, he, hr⟩ | ⟨-, hs, he, hr⟩
      · rw [fresh] at hv
        cases hv
      · -- a constant has no children
        have hcs : cs = [] := by
          rw [refreshed_of_clean V clean, expr] at he
          rw [he] at paths
          exact map_eq_nil_iff.1 paths
        subst hcs
        rw [hr]
        refine .node _ _ (by simp) h.label ?_
        change some v = some (ownValue (info.refreshed V).expr [])
        rw [he, ownValue_eConst]
      · rw [hr]
        refine .node _ _ (fun c hc => ?_) h.label ?_
        · obtain ⟨d, hd, rfl⟩ := mem_map.1 hc
          exact ih d hd (below d hd) (h.child hd)
        · change some _ = some (ownValue (info.refreshed V).expr _)
          rw [he, ownValue_eCompose, map_map]
          rfl

/-- The reduction of the node gives a value. -/
def Succeeds (fuel : ℕ) (V : View ι H) (n : ProofNode ι H) : Prop :=
  ∃ stats v r, (reduceDirty fuel n stats).eval V.answer = (.ok v, r)

theorem succeeds_of_reduceChildren {fuel : ℕ} : ∀ (cs : List (ProofNode ι H))
    {stats : ReduceStats} {fs : List (Str × Value ι)} {r : List (ProofNode ι H) × ReduceStats},
    (reduceDirty.reduceChildren fuel cs.length cs stats).eval V.answer = (.ok fs, r) →
      ∀ c ∈ cs, Succeeds fuel V c
  | [], _, _, _, _ => by simp
  | c :: cs, stats, fs, r, h => by
    rw [length_cons, reduceDirty.reduceChildren] at h
    simp only [eval_bind] at h
    obtain ⟨r₁, n₁, st₁, hc⟩ : ∃ r₁ n₁ st₁,
      (reduceDirty fuel c stats).eval V.answer = (r₁, n₁, st₁) := ⟨_, _, _, rfl⟩
    rw [hc] at h
    cases r₁ with
    | error f =>
      obtain ⟨hbad, -⟩ := Prod.mk.inj h
      cases hbad
    | ok v =>
      simp only [eval_bind] at h
      obtain ⟨rs, ns, st₂, hcs⟩ : ∃ rs ns st₂,
        (reduceDirty.reduceChildren fuel cs.length cs st₁).eval V.answer = (rs, ns, st₂) :=
        ⟨_, _, _, rfl⟩
      rw [hcs] at h
      cases rs with
      | error f =>
        obtain ⟨hbad, -⟩ := Prod.mk.inj h
        cases hbad
      | ok fs' =>
        intro d hd
        rcases mem_cons.1 hd with rfl | hd
        · exact ⟨stats, v, _, hc⟩
        · exact succeeds_of_reduceChildren cs hcs d hd

/-- A new tree that can be reduced has only constants and composites: nothing else gets children, and
without children nothing else has a value. -/
theorem FromView.plain {fuel : ℕ} (n : ProofNode ι H) (hn : FromView V n) (h : Succeeds fuel V n) :
    Plain V n := by
  induction n using Rose.induct with
  | node info cs ih =>
    cases hn with
    | node _ _ atom current expr hash fresh clean paths below =>
      obtain ⟨stats, v, r, h⟩ := h
      have hplain : IsPlain info.expr ∧ ∀ c ∈ cs, Succeeds fuel V c := by
        rw [← expr] at paths
        rw [reduceDirty] at h
        split at h
        · rename_i hv
          rw [fresh] at hv
          cases hv
        · simp only [eval_bind, eval_refresh, refreshed_of_clean V clean] at h
          cases he : info.expr with
          | eConst u =>
            rw [he] at paths
            obtain rfl := map_eq_nil_iff.1 paths
            exact ⟨trivial, by simp⟩
          | eCompose hs =>
            rw [he, arity_eCompose] at h
            refine ⟨trivial, ?_⟩
            obtain ⟨rs, ns, st, hcs⟩ : ∃ rs ns st,
              (reduceDirty.reduceChildren fuel cs.length cs
                { stats with cacheMisses := stats.cacheMisses + 1 }).eval V.answer = (rs, ns, st) :=
              ⟨_, _, _, rfl⟩
            rw [hcs] at h
            cases rs with
            | error f =>
              obtain ⟨hbad, -⟩ := Prod.mk.inj h
              cases hbad
            | ok fs => exact succeeds_of_reduceChildren cs hcs
          | _ =>
            rw [he] at paths h
            obtain rfl := map_eq_nil_iff.1 paths
            rw [reduceDirty.reduceChildren] at h
            obtain ⟨hbad, -⟩ := Prod.mk.inj h
            cases hbad
      intro i hi
      rw [Rose.labels_node] at hi
      rcases mem_cons.1 hi with rfl | hi
      · rw [refreshed_of_clean V clean]
        exact hplain.1
      · obtain ⟨c, hc, hi⟩ := mem_flatMap.1 hi
        exact ih c hc (below c hc) (hplain.2 c hc) i hi

/-! ### The version vector -/

omit [Inhabited ι] in
theorem lookup_captureNodes (V : View ι H) (p : Str) : ∀ (paths : List Str) (vv : VersionVector H),
    ((captureNodes paths vv : StoreProg ι H _).eval V.answer).lookup p =
      (vv.lookup p).or (if p ≠ [] ∧ p ∈ paths then V.currentHash p else none)
  | [], vv => by simp [captureNodes]
  | path :: paths, vv => by
    rw [captureNodes]
    by_cases h : path ≠ [] ∧ vv.lookup path = none
    · rw [if_pos h]
      simp only [eval_bind, eval_ask, View.answer_getCurrentHash]
      cases hc : V.currentHash path with
      | none =>
        rw [lookup_captureNodes V p paths vv]
        by_cases hp : p = path
        · subst hp
          simp [hc]
        · simp [hp]
      | some hash =>
        rw [lookup_captureNodes V p paths (vv.insert path hash), GoMap.lookup_insert]
        by_cases hp : p = path
        · subst hp
          simp [h.1, h.2, hc]
        · simp [hp]
    · rw [if_neg h, lookup_captureNodes V p paths vv]
      by_cases hp : p = path
      · subst hp
        by_cases hnil : p = []
        · simp [hnil]
        · obtain ⟨hash, hhash⟩ := Option.ne_none_iff_exists'.1 fun hn => h ⟨hnil, hn⟩
          simp [hhash]
      · simp [hp]

section

omit [Inhabited ι] [DecidableEq H]

theorem lookup_indexed_isSome (p : Str) : ∀ (l : List (NodeInfo ι H)) (m : GoMap Str ℕ),
    ((indexed m l).lookup p).isSome ↔ (m.lookup p).isSome ∨ p ∈ l.map (·.sourcePath)
  | [], m => by simp [indexed]
  | info :: l, m => by
    rw [indexed, foldl_cons, ← indexed, lookup_indexed_isSome p l, GoMap.lookup_insert]
    split_ifs with h
    · simp [h]
    · simp [h]

theorem mem_keys_indexed (p : Str) (l : List (NodeInfo ι H)) :
    p ∈ (indexed ∅ l).keys ↔ p ∈ l.map (·.sourcePath) := by
  have h := lookup_indexed_isSome p l ∅
  rw [AList.lookup_isSome, AList.mem_keys] at h
  simpa using h

theorem exists_of_lookup_indexed {p : Str} {addr : ℕ} : ∀ (l : List (NodeInfo ι H)) (m : GoMap Str ℕ),
    (indexed m l).lookup p = some addr →
      (∃ info ∈ l, info.addr = addr ∧ info.sourcePath = p) ∨ m.lookup p = some addr
  | [], m, h => Or.inr h
  | info :: l, m, h => by
    rw [indexed, foldl_cons, ← indexed] at h
    rcases exists_of_lookup_indexed l _ h with ⟨i, hi, hkey⟩ | h
    · exact Or.inl ⟨i, mem_cons_of_mem _ hi, hkey⟩
    · rw [GoMap.lookup_insert] at h
      split_ifs at h with hp
      · exact Or.inl ⟨info, mem_cons_self, Option.some.inj h, hp.symm⟩
      · exact Or.inr h

theorem lookup_indexed_of_not_mem {p : Str} : ∀ (l : List (NodeInfo ι H)) (m : GoMap Str ℕ),
    p ∉ l.map (·.sourcePath) → (indexed m l).lookup p = m.lookup p
  | [], _, _ => rfl
  | info :: l, m, h => by
    rw [map_cons, mem_cons, not_or] at h
    rw [indexed, foldl_cons, ← indexed, lookup_indexed_of_not_mem l _ h.2, GoMap.lookup_insert,
      if_neg h.1]

theorem lookup_indexed_of_nodup : ∀ (l : List (NodeInfo ι H)) (m : GoMap Str ℕ),
    (l.map (·.sourcePath)).Nodup → ∀ info ∈ l,
      (indexed m l).lookup info.sourcePath = some info.addr
  | info :: l, m, h, i, hi => by
    rw [map_cons, nodup_cons] at h
    rw [indexed, foldl_cons, ← indexed]
    rcases mem_cons.1 hi with rfl | hi
    · rw [lookup_indexed_of_not_mem l _ h.1, GoMap.lookup_insert, if_pos rfl]
    · exact lookup_indexed_of_nodup l _ h.2 i hi

end

/-! ### The proof -/

/-- The proof that `ComposeProof(path)` makes from a view, with the tree `t` before its reduction. -/
structure Composed (V : View ι H) (path : Str) (t : ProofNode ι H)
    (proof : MaterializedProof ι H) : Prop where
  tree : FromView V t
  plain : Plain V t
  path_eq : t.label.sourcePath = path
  addr : t.labels.map (·.addr) = List.range t.labels.length
  pathToNode : proof.pathToNode = indexed ∅ t.labels
  rootNode : proof.rootNode = reduced V t
  value : proof.value = (reduced V t).cached
  versionVector : ∀ p, proof.versionVector.lookup p =
    if p ≠ [] ∧ p ∈ t.labels.map (·.sourcePath) then V.currentHash p else none

omit [Inhabited ι] in
theorem lookup_captureVersionVector (hV : V.PathsAgree) {atom : CausalAtom ι H}
    (hcur : V.current path = some atom) (p : Str) : ((captureVersionVector atom).eval V.answer).lookup p =
      if p ≠ [] ∧ p = path then V.currentHash p else none := by
  obtain rfl := hV path atom hcur
  unfold captureVersionVector
  split_ifs with h hp hp
  · obtain ⟨-, rfl⟩ := hp
    simp only [eval_bind, eval_ask, View.answer_getCurrent, hcur, eval_pure,
      GoMap.lookup_insert, View.currentHash]
    simp
  · have hne : p ≠ atom.path := fun heq => hp ⟨heq ▸ h, heq⟩
    simp only [eval_bind, eval_ask, View.answer_getCurrent, hcur, eval_pure,
      GoMap.lookup_insert, if_neg hne]
    simp
  · obtain ⟨hp, rfl⟩ := hp
    exact absurd hp h
  · simp

theorem composeProof_spec (hV : V.PathsAgree) {fuel : ℕ}
    (h : (composeProof fuel path).eval V.answer = .ok proof) : ∃ t, Composed V path t proof := by
  unfold composeProof at h
  simp only [eval_bind, eval_ask, View.answer_getCurrent] at h
  cases hcur : V.current path with
  | none =>
    rw [hcur] at h
    cases h
  | some atom =>
    rw [hcur] at h
    simp only [eval_bind] at h
    obtain ⟨r, b, hbuild⟩ : ∃ r b, (buildProofNode fuel path ⟨0, ∅⟩ : StoreProg ι H _).eval V.answer =
      (r, b) := ⟨_, _, rfl⟩
    rw [hbuild] at h
    cases r with
    | error f => cases h
    | ok r =>
      have hspec := buildProofNode_spec V fuel path _ r b hbuild
      simp only [eval_bind] at h
      cases r with
      | none => cases h
      | some t =>
        obtain ⟨htree, hpath, halloc⟩ := hspec
        simp only [eval_bind] at h
        obtain ⟨r₁, n₁, st₁, hred⟩ : ∃ r₁ n₁ st₁,
          (reduceDirty fuel t ⟨0, 0, 0⟩).eval V.answer = (r₁, n₁, st₁) := ⟨_, _, _, rfl⟩
        rw [hred] at h
        cases r₁ with
        | error f => cases h
        | ok v =>
          have hplain := htree.plain t ⟨_, _, _, hred⟩
          obtain ⟨st, hcomp, -⟩ := computes_of_plain fuel V t hplain ⟨0, 0, 0⟩
          rw [hred] at hcomp
          obtain ⟨hv, hn⟩ := Prod.mk.inj hcomp
          obtain ⟨rfl, -⟩ := Prod.mk.inj hn
          obtain rfl := Except.ok.inj hv
          obtain rfl := Except.ok.inj h
          refine ⟨t, htree, hplain, hpath, ?_, halloc.index, rfl, rfl, fun p => ?_⟩
          · rw [halloc.addr, range_eq_range']
          · rw [lookup_captureNodes, lookup_captureVersionVector hV hcur, halloc.index]
            simp only [mem_keys_indexed]
            have hmem : path ∈ t.labels.map (·.sourcePath) :=
              mem_map.2 ⟨t.label, t.label_mem_labels, hpath⟩
            by_cases hp : p = path
            · subst hp
              simp [hmem]
            · simp [hp]

omit [DecidableEq H] in
theorem Composed.kept (h : Composed V path t proof) : Kept proof where
  addr_nodup := by
    rw [h.rootNode, map_addr_of_map_key (map_key_reduced V t h.plain), h.addr]
    exact nodup_range
  consistent := by
    rw [h.rootNode]
    exact h.tree.consistent t h.plain
  value := by rw [h.value, h.rootNode]

omit [DecidableEq H] in
theorem Composed.map_path (h : Composed V path t proof) :
    proof.rootNode.map (·.sourcePath) = t.map (·.sourcePath) := by
  rw [h.rootNode, map_path_eq_of_map_key (map_key_reduced V t h.plain)]

def MaterializedProof.paths (proof : MaterializedProof ι H) : List Str :=
  proof.rootNode.labels.map (·.sourcePath)

omit [DecidableEq H] in
theorem Composed.paths (h : Composed V path t proof) : proof.paths = t.labels.map (·.sourcePath) := by
  rw [MaterializedProof.paths, h.rootNode, map_path_of_map_key (map_key_reduced V t h.plain)]

omit [Inhabited ι] [DecidableEq H] in
theorem FromView.current (n : ProofNode ι H) (hn : FromView V n) : ∀ info ∈ n.labels, info.dirty = false ∧
      ∃ a, V.current info.sourcePath = some a ∧ info.expr = a.expr := by
  induction n using Rose.induct with
  | node info cs ih =>
    cases hn with
    | node _ _ atom current expr hash fresh clean paths below =>
      intro i hi
      rw [Rose.labels_node] at hi
      rcases mem_cons.1 hi with rfl | hi
      · exact ⟨clean, atom, current, expr⟩
      · obtain ⟨c, hc, hi⟩ := mem_flatMap.1 hi
        exact ih c hc (below c hc) i hi

omit [DecidableEq H] in
theorem Composed.plain_paths (h : Composed V path t proof) :
    ∀ p ∈ proof.paths, ∃ a, V.current p = some a ∧ IsPlain a.expr := by
  intro p hp
  rw [h.paths] at hp
  obtain ⟨info, hinfo, rfl⟩ := mem_map.1 hp
  obtain ⟨hclean, a, ha, hexpr⟩ := h.tree.current t info hinfo
  have hplain := h.plain info hinfo
  rw [refreshed_of_clean V hclean, hexpr] at hplain
  exact ⟨a, ha, hplain⟩

omit [DecidableEq H] in
theorem Composed.exact (h : Composed V path t proof) {info : NodeInfo ι H} (hinfo : info ∈ t.labels)
    {q : Str} (hq : proof.pathToNode.lookup q = some info.addr) : q = info.sourcePath := by
  rw [h.pathToNode] at hq
  rcases exists_of_lookup_indexed _ _ hq with ⟨i, hi, haddr, rfl⟩ | hnone
  · have hnd : (t.labels.map (·.addr)).Nodup := h.addr ▸ nodup_range
    rw [inj_on_of_nodup_map hnd hi hinfo haddr]
  · simp at hnone

end Wavicle.Engine
