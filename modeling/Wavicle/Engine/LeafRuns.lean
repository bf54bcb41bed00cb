import Wavicle.Engine.Sessions

/-! # Sessions in which only leaves are written

If writes go to the leaves of a proof only, its composites never change, and what a leaf node holds depends on
whether it is tracked: the path index leads to one node for each path, and the others are never read again. -/

namespace Wavicle.Engine

open Lib Wavicle.Core Storage List

section

variable {ι H : Type}

def constAt (V : View ι H) (p : Str) : Option (Value ι) := (V.current p).bind (·.expr.constValue)

variable {p : Str} {V V₀ : View ι H} {paths : List Str} {pathToNode : GoMap Str ℕ} {e : Expr ι H}
  {log : List (CausalAtom ι H)}

theorem constAt_eq_some {v : Value ι} :
    constAt V p = some v ↔ ∃ a, V.current p = some a ∧ a.expr = .eConst v := by
  simp only [constAt, Option.bind_eq_some_iff, Expr.constValue_eq_some]

theorem constAt_of_compose {a : CausalAtom ι H} {hs : List H} (ha : V.current p = some a)
    (he : a.expr = .eCompose hs) : constAt V p = none := by
  rw [constAt, ha, Option.bind_some, he]
  rfl

/-- The writes of such a session: in the tree, constants to the paths of leaves; elsewhere anything. -/
def LeafWrite (V₀ : View ι H) (paths : List Str) (p : Str) (e : Expr ι H) : Prop :=
  p ∈ paths → (constAt V₀ p).isSome ∧ ∃ v, e = .eConst v

/-- A tree of composites as they were in the view `V₀`, with constants at the leaves, where `Q` holds
of the address, path and expression of each leaf. -/
inductive Grown (V₀ : View ι H) (Q : ℕ → Str → Expr ι H → Prop) : ProofNode ι H → Prop where
  | leaf (info : NodeInfo ι H) (was : (constAt V₀ info.sourcePath).isSome)
      (now : Q info.addr info.sourcePath info.expr) : Grown V₀ Q (.node info [])
  | inner (info : NodeInfo ι H) (cs : List (ProofNode ι H)) (a : CausalAtom ι H) (hs : List H)
      (was : V₀.current info.sourcePath = some a) (compose : a.expr = .eCompose hs)
      (now : info.expr = a.expr) (below : ∀ c ∈ cs, Grown V₀ Q c) : Grown V₀ Q (.node info cs)

theorem Grown.mono {Q Q' : ℕ → Str → Expr ι H → Prop} (t : ProofNode ι H)
    (hQ : ∀ info ∈ t.labels, Q info.addr info.sourcePath info.expr → Q' info.addr info.sourcePath info.expr)
    (h : Grown V₀ Q t) : Grown V₀ Q' t := by
  induction t using Rose.induct with
  | node info cs ih =>
    rw [Rose.labels_node] at hQ
    cases h with
    | leaf _ was now => exact .leaf info was (hQ info (.head _) now)
    | inner _ _ a hs was compose now below =>
      refine .inner info cs a hs was compose now fun c hc => ih c hc (fun i hi => ?_) (below c hc)
      exact hQ i (.tail _ (mem_flatMap.2 ⟨c, hc, hi⟩))

variable [Inhabited ι]

/-- The nested record of a tree of paths, whose leaves are the paths with a value. -/
def nested (value : Str → Option (Value ι)) : Rose Str → Value ι
  | .node p cs =>
    match value p with
    | some v => v
    | none => newRecord (fields cs)
where
  fields : List (Rose Str) → List (Str × Value ι)
    | [] => []
    | c :: cs => (c.label, nested value c) :: fields cs

theorem nested_node (value : Str → Option (Value ι)) (p : Str) (cs : List (Rose Str)) :
    nested value (.node p cs) =
      match value p with
      | some v => v
      | none => newRecord (cs.map fun c => (c.label, nested value c)) := by
  have hfields : ∀ cs : List (Rose Str), nested.fields value cs =
      cs.map fun c => (c.label, nested value c) := by
    intro cs
    induction cs with
    | nil => rfl
    | cons c cs ih => rw [nested.fields, ih, map_cons]
  rw [nested, hfields]

/-! ### One reduction -/

variable [DecidableEq H]

/-- The current atoms of the tree's paths: composites are those of `V₀`, leaves are constants. -/
structure LeafView (V₀ V : View ι H) (paths : List Str) : Prop where
  inner : ∀ p ∈ paths, constAt V₀ p = none → ∀ a, V.current p = some a → V₀.current p = some a
  leaf : ∀ p ∈ paths, (constAt V₀ p).isSome → ∀ a, V.current p = some a → ∃ v, a.expr = .eConst v

omit [Inhabited ι] [DecidableEq H] in
theorem paths_subset_child {info : NodeInfo ι H} {cs : List (ProofNode ι H)}
    (h : (Rose.node info cs).labels.map (·.sourcePath) ⊆ paths) {c : ProofNode ι H} (hc : c ∈ cs) :
    c.labels.map (·.sourcePath) ⊆ paths := by
  refine List.Subset.trans (map_subset _ fun i hi => ?_) h
  rw [Rose.labels_node]
  exact mem_cons_of_mem _ (mem_flatMap.2 ⟨c, hc, hi⟩)

omit [DecidableEq H] in
theorem reduced_marked_of_no_hit {t : ProofNode ι H} (ht : Consistent t) {changed : List Str}
    (hno : t.labels.any (isHit pathToNode changed) = false) :
    reduced V (t.marked pathToNode changed) = t.marked pathToNode changed := by
  cases ht with
  | node info cs below plain own =>
    rw [marked_node, hno]
    exact reduced_of_clean V (show (info.setDirty false).dirty = false from rfl) own _

omit [DecidableEq H] in
/-- **A reduction of a grown tree** reads again the leaves that are hit and nothing else. -/
theorem Grown.reduced {Q Q' : ℕ → Str → Expr ι H → Prop} (hV : LeafView V₀ V paths) {changed : List Str}
    (hQ : ∀ addr p e, p ∈ paths → Q addr p e →
      Q' addr p (if changed.any (fun q => pathToNode.lookup q = some addr) then reread V p e else e))
    (hconst : ∀ addr p e, Q addr p e → ∃ v, e = .eConst v) (t : ProofNode ι H) (ht : Grown V₀ Q t)
    (hc : Consistent t) (hsub : t.labels.map (·.sourcePath) ⊆ paths) :
    Grown V₀ Q' (reduced V (t.marked pathToNode changed)) := by
  induction t using Rose.induct with
  | node info cs ih =>
    have hpath : info.sourcePath ∈ paths := hsub (by rw [Rose.labels_node]; exact mem_cons_self)
    cases hc with
    | node _ _ below plain own =>
      cases ht with
      | leaf _ was now =>
        have hlabels : (Rose.node info []).labels.any (isHit pathToNode changed) =
            changed.any fun q => pathToNode.lookup q = some info.addr := by
          rw [Rose.labels_node, flatMap_nil, any_cons, any_nil, Bool.or_false]
          rfl
        have hnow := hQ _ _ _ hpath now
        rw [marked_node, hlabels, map_nil]
        cases hhit : changed.any fun q => pathToNode.lookup q = some info.addr with
        | false =>
          rw [hhit] at hnow
          rw [reduced_of_clean V (show (info.setDirty false).dirty = false from rfl) own]
          exact .leaf _ was hnow
        | true =>
          rw [hhit, if_pos rfl] at hnow
          -- what is read again is a constant, or there is nothing to read
          obtain ⟨v, hv⟩ : ∃ v, reread V info.sourcePath info.expr = .eConst v := by
            unfold reread
            split
            · rename_i a ha
              split_ifs
              · exact hV.leaf _ hpath was a ha
              · exact hconst _ _ _ now
            · exact hconst _ _ _ now
          have hexpr : ((info.setDirty true).refreshed V).expr = .eConst v :=
            (expr_refreshed V rfl).trans hv
          have hkey := key_refreshed V (info.setDirty true)
          rw [reduced_of_eConst V (Or.inl rfl) hexpr]
          have haddr : ((info.setDirty true).refreshed V).addr = info.addr := congrArg Prod.fst hkey
          have hsp : ((info.setDirty true).refreshed V).sourcePath = info.sourcePath :=
            congrArg Prod.snd hkey
          refine .leaf _ ?_ ?_
          · change (constAt V₀ ((info.setDirty true).refreshed V).sourcePath).isSome
            rwa [hsp]
          · change Q' ((info.setDirty true).refreshed V).addr
              ((info.setDirty true).refreshed V).sourcePath ((info.setDirty true).refreshed V).expr
            rwa [haddr, hsp, hexpr, ← hv]
      | inner _ _ a hs was compose now below' =>
        have hcs : ∀ c : ProofNode ι H, c ∈ cs →
            Grown V₀ Q' (Engine.reduced V (c.marked pathToNode changed)) :=
          fun c hc => ih c hc (below' c hc) (below c hc) (paths_subset_child hsub hc)
        rw [marked_node]
        cases hhit : (Rose.node info cs).labels.any (isHit pathToNode changed) with
        | false =>
          rw [reduced_of_clean V (show (info.setDirty false).dirty = false from rfl) own]
          refine .inner _ _ a hs was compose now fun c hc => ?_
          obtain ⟨d, hd, rfl⟩ := mem_map.1 hc
          have hno : d.labels.any (isHit pathToNode changed) = false := by
            rw [Rose.labels_node] at hhit
            simp only [any_cons, Bool.or_eq_false_iff, any_flatMap] at hhit
            exact any_eq_false.1 hhit.2 d hd |> fun h => by simpa using h
          rw [← reduced_marked_of_no_hit (V := V) (below d hd) hno]
          exact hcs d hd
        | true =>
          have hreread : reread V info.sourcePath info.expr = .eCompose hs := by
            unfold reread
            have hnone := constAt_of_compose was compose
            split
            · rename_i b hb
              have hb' := hV.inner _ hpath hnone b hb
              rw [was] at hb'
              obtain rfl := Option.some.inj hb'
              rw [now, ite_self, compose]
            · rw [now, compose]
          have hexpr : ((info.setDirty true).refreshed V).expr = .eCompose hs :=
            (expr_refreshed V rfl).trans hreread
          have hsp : ((info.setDirty true).refreshed V).sourcePath = info.sourcePath :=
            congrArg Prod.snd (key_refreshed V (info.setDirty true))
          rw [reduced_of_eCompose V (Or.inl rfl) hexpr]
          refine .inner _ _ a hs ?_ compose ?_ fun c hc => ?_
          · change V₀.current ((info.setDirty true).refreshed V).sourcePath = some a
            rwa [hsp]
          · change ((info.setDirty true).refreshed V).expr = a.expr
            rw [hexpr, compose]
          · obtain ⟨m, hm, rfl⟩ := mem_map.1 hc
            obtain ⟨d, hd, rfl⟩ := mem_map.1 hm
            exact hcs d hd

/-! ### What the leaves hold -/

/-- A leaf node, by its address, path and expression. If the path index leads to it, its expression is
that of the atom whose hash the version vector has; if not, it is still the first one. -/
structure Held (V₀ : View ι H) (log : List (CausalAtom ι H)) (pathToNode : GoMap Str ℕ)
    (vv : VersionVector H) (addr : ℕ) (p : Str) (e : Expr ι H) : Prop where
  exact : ∀ q, pathToNode.lookup q = some addr → q = p
  leaf : (constAt V₀ p).isSome
  const : ∃ v, e = .eConst v
  tracked : p ≠ [] → pathToNode.lookup p = some addr →
    ∃ a ∈ log, vv.lookup p = some a.hash ∧ e = a.expr
  untracked : p = [] ∨ pathToNode.lookup p ≠ some addr → ∃ a, V₀.current p = some a ∧ e = a.expr

section

omit [Inhabited ι] [DecidableEq H]

theorem Held.mono {log' : List (CausalAtom ι H)} {vv : VersionVector H} {addr : ℕ}
    (hlog : log ⊆ log') (h : Held V₀ log pathToNode vv addr p e) :
    Held V₀ log' pathToNode vv addr p e where
  exact := h.exact
  leaf := h.leaf
  const := h.const
  tracked hp hidx := by
    obtain ⟨a, ha, hvv, he⟩ := h.tracked hp hidx
    exact ⟨a, hlog ha, hvv, he⟩
  untracked := h.untracked

theorem LeafView.refl (V₀ : View ι H) (paths : List Str) : LeafView V₀ V₀ paths := by
  refine ⟨fun _ _ _ _ ha => ha, fun p hp hleaf a ha => ?_⟩
  obtain ⟨v, hv⟩ := Option.isSome_iff_exists.1 hleaf
  obtain ⟨b, hb, he⟩ := constAt_eq_some.1 hv
  rw [ha] at hb
  obtain rfl := Option.some.inj hb
  exact ⟨v, he⟩

theorem LeafView.reread_const (hV : LeafView V₀ V paths) (hp : p ∈ paths)
    (hleaf : (constAt V₀ p).isSome) (he : ∃ v, e = .eConst v) : ∃ v, reread V p e = .eConst v := by
  unfold reread
  split
  · rename_i a ha
    split_ifs
    · exact hV.leaf p hp hleaf a ha
    · exact he
  · exact he

theorem Held.hit_iff {vv : VersionVector H} {addr : ℕ} (h : Held V₀ log pathToNode vv addr p e)
    (changed : List Str) : (changed.any fun q => pathToNode.lookup q = some addr) = true ↔
      p ∈ changed ∧ pathToNode.lookup p = some addr := by
  simp only [any_eq_true, decide_eq_true_eq]
  constructor
  · rintro ⟨q, hq, hidx⟩
    obtain rfl := h.exact q hidx
    exact ⟨hq, hidx⟩
  · rintro ⟨hp, hidx⟩
    exact ⟨p, hp, hidx⟩

end

omit [Inhabited ι] in
theorem Held.reduce (hV : LeafView V₀ V paths) (hlog : ∀ p a, V.current p = some a → a ∈ log)
    {proof : MaterializedProof ι H} (hvv : ∀ p h, proof.versionVector.lookup p = some h → p ≠ [])
    {addr : ℕ} (hp : p ∈ paths) (h : Held V₀ log proof.pathToNode proof.versionVector addr p e) :
    Held V₀ log proof.pathToNode (updated V proof.versionVector (proof.changed V)) addr p
      (if (proof.changed V).any (fun q => proof.pathToNode.lookup q = some addr) then reread V p e
        else e) := by
  have hhit := h.hit_iff (proof.changed V)
  refine ⟨h.exact, h.leaf, ?_, fun hne hidx => ?_, fun hun => ?_⟩
  · split_ifs
    · exact hV.reread_const hp h.leaf h.const
    · exact h.const
  · obtain ⟨a, ha, hva, he⟩ := h.tracked hne hidx
    rw [lookup_updated]
    by_cases hch : p ∈ proof.changed V
    · rw [if_pos (hhit.2 ⟨hch, hidx⟩), if_pos hch]
      unfold reread View.currentHash
      cases hcur : V.current p with
      | none => exact ⟨a, ha, hva, he⟩
      | some b => exact ⟨b, hlog p b hcur, rfl, by simp [hne]⟩
    · rw [if_neg (fun hh => hch (hhit.1 hh).1), if_neg hch]
      exact ⟨a, ha, hva, he⟩
  · rw [if_neg]
    · exact h.untracked hun
    · intro hh
      obtain ⟨hch, hidx⟩ := hhit.1 hh
      obtain ⟨hash, hlook, -⟩ := mem_changed.1 hch
      exact hun.elim (hvv p hash hlook) fun hne => hne hidx

end

/-! ### The invariant of a session -/

section

variable {σ ι H : Type} [Inhabited ι] [DecidableEq H] (S : LawfulStore σ ι H)

/-- A session that began in the store `w₀` with the proof `proof₀`, and in which only leaves are
written. -/
structure LeafSession (w₀ : σ) (proof₀ : MaterializedProof ι H) (s : Session σ ι H) : Prop where
  keeps : s.Keeps S proof₀
  view : LeafView (S.view w₀) (S.view s.store) proof₀.paths
  lastView : LeafView (S.view w₀) (S.view s.last) proof₀.paths
  grown : Grown (S.view w₀) (Held (S.view w₀) (S.log s.store) s.proof.pathToNode
    s.proof.versionVector) s.proof.rootNode
  vector : ∀ p, (s.proof.versionVector.lookup p).isSome ↔ p ≠ [] ∧ p ∈ proof₀.paths
  /-- the version vector has the hashes that were current at the last reduction -/
  recorded : ∀ p ∈ proof₀.paths, p ≠ [] → ∀ h, (S.view s.last).currentHash p = some h →
    s.proof.versionVector.lookup p = some h

variable {S} {w₀ : σ} {proof₀ : MaterializedProof ι H} {s s' : Session σ ι H}

theorem LeafSession.vector_ne_nil (h : LeafSession S w₀ proof₀ s) (p : Str) (hash : H)
    (hp : s.proof.versionVector.lookup p = some hash) : p ≠ [] :=
  ((h.vector p).1 (by rw [hp]; rfl)).1

theorem LeafSession.view_step (hs : LeafSession S w₀ proof₀ s) (hgood : S.Good s.store)
    (hd : Distinct S s'.store) (h : Session.Step S (LeafWrite (S.view w₀) proof₀.paths) s s') :
    LeafView (S.view w₀) (S.view s'.store) proof₀.paths := by
  refine ⟨fun p hp hnone a ha => ?_, fun p hp hleaf a ha => ?_⟩
  · rcases h.current hgood hd ha with hold | ⟨e, hall, -⟩
    · exact hs.view.inner p hp hnone a hold
    · have hsome := (hall hp).1
      rw [hnone] at hsome
      cases hsome
  · rcases h.current hgood hd ha with hold | ⟨e, hall, halike⟩
    · exact hs.view.leaf p hp hleaf a hold
    · obtain ⟨v, rfl⟩ := (hall hp).2
      obtain ⟨u, hu, -⟩ := halike.const v rfl
      exact ⟨u, hu⟩

theorem LeafSession.grown_after (hs : LeafSession S w₀ proof₀ s) (hgood : S.Good s.store)
    (stats : ReduceStats) : Grown (S.view w₀) (Held (S.view w₀) (S.log s.store) s.proof.pathToNode
      (s.proof.after (S.view s.store) stats).versionVector)
      (s.proof.after (S.view s.store) stats).rootNode := by
  refine Grown.reduced hs.view (fun addr p e hp hheld => ?_) (fun _ _ _ hheld => hheld.const)
    s.proof.rootNode hs.grown hs.keeps.kept.consistent ?_
  · exact hheld.reduce hs.view (S.logged _ hgood) hs.vector_ne_nil hp
  · change s.proof.paths ⊆ proof₀.paths
    rw [hs.keeps.paths]
    exact List.Subset.refl _

theorem LeafSession.vector_after (hs : LeafSession S w₀ proof₀ s) (V : View ι H)
    (stats : ReduceStats) (p : Str) :
    ((s.proof.after V stats).versionVector.lookup p).isSome ↔ p ≠ [] ∧ p ∈ proof₀.paths := by
  rw [← hs.vector p]
  change ((updated V s.proof.versionVector (s.proof.changed V)).lookup p).isSome ↔ _
  rw [lookup_updated]
  split_ifs with hch
  · obtain ⟨h, hlook, -⟩ := mem_changed.1 hch
    simp [hlook]
  · rfl

theorem LeafSession.recorded_after (hs : LeafSession S w₀ proof₀ s) (V : View ι H)
    (stats : ReduceStats) {p : Str} (hp : p ∈ proof₀.paths) (hne : p ≠ []) {h : H}
    (hV : V.currentHash p = some h) : (s.proof.after V stats).versionVector.lookup p = some h := by
  change (updated V s.proof.versionVector (s.proof.changed V)).lookup p = some h
  rw [lookup_updated]
  split_ifs with hch
  · rw [hV, Option.some_or]
  · -- not changed: the entry is the current hash already
    obtain ⟨h', hlook⟩ := Option.isSome_iff_exists.1 ((hs.vector p).2 ⟨hne, hp⟩)
    by_contra hno
    exact hch (mem_changed.2 ⟨h', hlook, fun heq => hno (by rw [hlook, ← heq, hV])⟩)

theorem LeafSession.step (hgood : S.Good s.store) (hd : Distinct S s'.store)
    (h : Session.Step S (LeafWrite (S.view w₀) proof₀.paths) s s')
    (hs : LeafSession S w₀ proof₀ s) : LeafSession S w₀ proof₀ s' := by
  have hkeeps := Session.Keeps.step (fun p e hp hall => by
    obtain ⟨v, rfl⟩ := (hall hp).2
    exact trivial) hgood hd h hs.keeps
  have hview := hs.view_step hgood hd h
  have hheld : ∀ vv (t : ProofNode ι H),
      Grown (S.view w₀) (Held (S.view w₀) (S.log s.store) s.proof.pathToNode vv) t →
      Grown (S.view w₀) (Held (S.view w₀) (S.log s'.store) s.proof.pathToNode vv) t :=
    fun _ t => Grown.mono t fun _ _ hh => hh.mono (h.log hgood).subset
  rcases h.proof hgood with ⟨hproof, hlast⟩ | ⟨fuel, hproof, -, hlast⟩
  · refine ⟨hkeeps, hview, hlast ▸ hs.lastView, ?_, hproof ▸ hs.vector, hproof ▸ hlast ▸ hs.recorded⟩
    rw [hproof]
    exact hheld _ _ hs.grown
  · rcases eval_reduceIncremental hs.keeps.kept.addr_nodup hs.keeps.plain_marked fuel with
      ⟨hnil, heval⟩ | ⟨-, stats, -, heval⟩
    · rw [heval] at hproof
      refine ⟨hkeeps, hview, hlast ▸ hs.view, ?_, ?_, ?_⟩
      · rw [hproof]
        exact hheld _ _ hs.grown
      · rw [hproof]
        exact hs.vector
      · rw [hproof, hlast]
        intro p hp hne hash hcur
        obtain ⟨h', hlook⟩ := Option.isSome_iff_exists.1 ((hs.vector p).2 ⟨hne, hp⟩)
        by_contra hno
        have hch : p ∈ s.proof.changed (S.view s.store) :=
          mem_changed.2 ⟨h', hlook, fun heq => hno (by
            change s.proof.versionVector.lookup p = some hash
            rw [hlook, ← heq, hcur])⟩
        rw [hnil] at hch
        cases hch
    · rw [heval] at hproof
      refine ⟨hkeeps, hview, hlast ▸ hs.view, ?_, ?_, ?_⟩
      · rw [hproof]
        exact hheld _ _ (hs.grown_after hgood stats)
      · rw [hproof]
        exact hs.vector_after _ stats
      · rw [hproof, hlast]
        intro p hp hne hash hcur
        exact hs.recorded_after _ stats hp hne hcur

/-! ### How a session begins -/

omit [DecidableEq H] in
theorem FromView.grown {V : View ι H} {Q : ℕ → Str → Expr ι H → Prop} (n : ProofNode ι H)
    (hn : FromView V n) (h : Plain V n)
    (hQ : ∀ info ∈ n.labels, ∀ a v, V.current info.sourcePath = some a → a.expr = .eConst v →
      Q info.addr info.sourcePath a.expr) : Grown V Q (reduced V n) := by
  induction n using Rose.induct with
  | node info cs ih =>
    have hhead := hQ info (by rw [Rose.labels_node]; exact mem_cons_self)
    have hchild : ∀ c ∈ cs, ∀ i ∈ c.labels, i ∈ (Rose.node info cs).labels := fun c hc i hi => by
      rw [Rose.labels_node]
      exact mem_cons_of_mem _ (mem_flatMap.2 ⟨c, hc, hi⟩)
    cases hn with
    | node _ _ atom current expr hash fresh clean paths below =>
      rcases reduced_cases V info cs h.label with ⟨-, ⟨v, hv⟩, -⟩ | ⟨-, v, he, hr⟩ | ⟨-, hs, he, hr⟩
      · rw [fresh] at hv
        cases hv
      · rw [refreshed_of_clean V clean] at he hr
        have hatom : atom.expr = .eConst v := expr ▸ he
        have hcs : cs = [] := by
          rw [hatom] at paths
          exact map_eq_nil_iff.1 paths
        subst hcs
        rw [hr]
        refine .leaf _ ?_ ?_
        · change (constAt V info.sourcePath).isSome
          rw [constAt_eq_some.2 ⟨atom, current, hatom⟩]
          rfl
        · change Q info.addr info.sourcePath info.expr
          rw [expr]
          exact hhead atom v current hatom
      · rw [refreshed_of_clean V clean] at he hr
        rw [hr]
        refine .inner _ _ atom hs current (expr ▸ he) expr fun c hc => ?_
        obtain ⟨d, hd, rfl⟩ := mem_map.1 hc
        exact ih d hd (below d hd) (h.child hd) fun i hi => hQ i (hchild d hd i hi)

theorem Composed.leafSession {path : Str} {t : ProofNode ι H}
    (h : Composed (S.view w₀) path t s.proof) (hview : S.view s.store = S.view w₀)
    (hgood : S.Good s.store) (hlast : s.last = w₀) : LeafSession S w₀ s.proof s where
  keeps := h.keeps hview
  view := hview ▸ .refl _ _
  lastView := hlast ▸ .refl _ _
  grown := by
    rw [h.rootNode]
    refine h.tree.grown t h.plain fun info hinfo a v ha he => ?_
    refine ⟨fun q hq => h.exact hinfo hq, ?_, ⟨v, he⟩, fun hne _ => ?_, fun _ => ⟨a, ha, rfl⟩⟩
    · rw [constAt_eq_some.2 ⟨a, ha, he⟩]
      rfl
    · refine ⟨a, S.logged _ hgood _ _ (hview ▸ ha), ?_, rfl⟩
      rw [h.versionVector, if_pos ⟨hne, mem_map.2 ⟨info, hinfo, rfl⟩⟩, View.currentHash, ha]
      rfl
  vector p := by
    rw [h.versionVector, h.paths]
    split_ifs with hp
    · obtain ⟨a, ha, -⟩ := h.plain_paths p (h.paths ▸ hp.2)
      simp [View.currentHash, ha, hp]
    · simpa using hp
  recorded p hp hne hash hcur := by
    rw [h.versionVector, if_pos ⟨hne, h.paths ▸ hp⟩, ← hlast, hcur]

theorem LeafSession.of_run {fuel : ℕ} {path : Str} {s₀ : Session σ ι H} (hw₀ : S.Good w₀)
    (hcompose : Session.compose S fuel path w₀ = .ok s₀)
    (hrun : Session.Run S (LeafWrite (S.view w₀) s₀.proof.paths) s₀ s) (hd : Distinct S s.store) :
    LeafSession S w₀ s₀.proof s ∧ S.Good s.store ∧ ∃ t, Composed (S.view w₀) path t s₀.proof :=
  hrun.of_compose hw₀ hcompose hd
    (fun _ ht hview hgood hlast => ht.leafSession hview hgood hlast)
    fun _ _ hgood hd hstep hs => hs.step hgood hd hstep

end

end Wavicle.Engine
