import Wavicle.Engine.Sessions
import Wavicle.Lib.Interleave
import Wavicle.Storage.CrystalSpec

/-! # A reader among writers

A reader composes a proof and reduces it again and again, while others write between its calls. It reads the
atom of a node in one call and the hash for the version vector in the next one. -/

namespace Wavicle.Engine

open Lib Wavicle.Core Storage Prog List

section

variable {σ ι H : Type} [Inhabited ι] [DecidableEq H]

abbrev Event (ι H : Type) := Prog.Event (fun c : StoreCall ι H => c.op.Res)

def readAtom : Event ι H → Option (Option (CausalAtom ι H))
  | ⟨⟨_, .getCurrent _⟩, a⟩ => some a
  | _ => none

/-- The value a composition has read for its node, in its second call. The third call reads the hash
that is recorded for it. -/
def composeHolds : List (Event ι H) → Option (Value ι)
  | [_, e] => (readAtom e).join.bind (·.expr.constValue)
  | _ => none

/-- The value of the node once a reduction has read it again, in its third call; if there is no atom
any more, the node keeps its value. The fourth call reads the hash that is recorded for it. -/
def reduceHolds (proof : MaterializedProof ι H) : List (Event ι H) → Option (Value ι)
  | [_, _, e] => (readAtom e).bind fun a =>
    match a with
    | some a => a.expr.constValue
    | none => some proof.value
  | _ => none

/-- A reader: what it is doing, with the calls it has made and the rest of its program. -/
inductive Reader (ι H : Type) where
  | composing (history : List (Event ι H))
      (rest : StoreProg ι H (Except Fault (MaterializedProof ι H)))
  | holding (proof : MaterializedProof ι H)
  | reducing (proof : MaterializedProof ι H) (history : List (Event ι H))
      (rest : StoreProg ι H (Except Fault (Value ι) × MaterializedProof ι H))

/-- The value that is read for the node while its hash is not recorded. -/
def Reader.holds : Reader ι H → Option (Value ι)
  | .composing history _ => composeHolds history
  | .holding _ => none
  | .reducing proof history _ => reduceHolds proof history

/-- A reader of one path and the store that others write to meanwhile. -/
structure Race (σ ι H : Type) where
  store : σ
  reader : Reader ι H

variable (S : LawfulStore σ ι H)

/-- What others do to the store: they append constants to `p`, and anything elsewhere; time passes.
After a write to `p` there has to be `guard`. -/
inductive Interferes (p : Str) (guard : σ → Prop) (w : σ) : σ → Prop where
  | write (via : Via) (e : Expr ι H) (q : Str) (parents : List H) (deadline : Time)
      (const : q = p → ∃ v, e = .eConst v)
      (guarded : q = p → guard (S.call w ⟨via, .appendAtom e q parents deadline⟩).2) :
      Interferes p guard w (S.call w ⟨via, .appendAtom e q parents deadline⟩).2
  | idle (w' : σ) (h : S.Idle w w') : Interferes p guard w w'

namespace Race

def advance : Race σ ι H → Race σ ι H
  | ⟨w, .composing history (.call c k)⟩ =>
    ⟨(S.call w c).2, .composing (history ++ [⟨c, (S.call w c).1⟩]) (k (S.call w c).1)⟩
  | ⟨w, .composing _ (.ret (.ok proof))⟩ => ⟨w, .holding proof⟩
  | ⟨w, .composing history (.ret (.error f))⟩ => ⟨w, .composing history (.ret (.error f))⟩
  | ⟨w, .holding proof⟩ => ⟨w, .holding proof⟩
  | ⟨w, .reducing proof history (.call c k)⟩ =>
    ⟨(S.call w c).2, .reducing proof (history ++ [⟨c, (S.call w c).1⟩]) (k (S.call w c).1)⟩
  | ⟨w, .reducing _ _ (.ret (_, proof))⟩ => ⟨w, .holding proof⟩

/-- One step of an interleaving. A write to `p` has to meet `guard`, which is told what the reader
holds and the store after the write. -/
inductive Step (p : Str) (guard : Option (Value ι) → σ → Prop) (c : Race σ ι H) :
    Race σ ι H → Prop where
  | interfere (w : σ) (h : Interferes S p (guard c.reader.holds) c.store w) :
      Step p guard c { c with store := w }
  | begin (fuel : ℕ) (proof : MaterializedProof ι H) (h : c.reader = .holding proof) :
      Step p guard c { c with reader := .reducing proof [] (reduceIncremental fuel proof) }
  | advance : Step p guard c (c.advance S)

/-- The interleavings of a reader of `p` with others. -/
abbrev Run (p : Str) (guard : Option (Value ι) → σ → Prop) : Race σ ι H → Race σ ι H → Prop :=
  Relation.ReflTransGen (Step S p guard)

def start (fuel : ℕ) (p : Str) (w : σ) : Race σ ι H := ⟨w, .composing [] (composeProof fuel p)⟩

/-- The result of a reduction that begins here and returns after its first call, which is the
comparison of the version vector; and the store after that call. -/
def hit (c : Race σ ι H) : Option ((Except Fault (Value ι) × MaterializedProof ι H) × σ) :=
  match c.reader with
  | .reducing _ [] rest => rest.afterCall S.call c.store
  | _ => none

/-- If the version vector matches, the value that is returned is that of the atom the store has for
`p`. -/
def HitsFresh (p : Str) (c : Race σ ι H) : Prop :=
  ∀ r, c.hit S = some r →
    ∃ a v, (S.view r.2).current p = some a ∧ a.expr = .eConst v ∧ r.1.1 = .ok v

end Race

/-- The write leaves `p` with the value that the reader holds, if it holds one. -/
def Undisturbed (p : Str) (held : Option (Value ι)) (w : σ) : Prop :=
  ∀ u, held = some u → ∀ a, (S.view w).current p = some a → a.expr = .eConst u

variable {S}

/-! ### What holds of the store -/

/-- The store is in order, no hashes have collided, and `p` has a constant, if anything. -/
structure Sane (S : LawfulStore σ ι H) (p : Str) (w : σ) : Prop where
  good : S.Good w
  distinct : Distinct S w
  const : ∀ a, (S.view w).current p = some a → ∃ v, a.expr = .eConst v

/-- The interference while the reader holds a value, as far as there are no collisions. -/
def Rely (S : LawfulStore σ ι H) (p : Str) (held : Option (Value ι)) (w w' : σ) : Prop :=
  Interferes S p (Undisturbed S p held) w w' ∧ Distinct S w'

variable {p : Str} {w w' : σ} {held : Option (Value ι)}

variable {guard : σ → Prop} {v : Value ι} {h : H} {history : List (Event ι H)} {info : NodeInfo ι H}

section

omit [Inhabited ι]

theorem Interferes.log (h : Interferes S p guard w w') (hw : S.Good w) :
    S.Good w' ∧ S.log w <:+ S.log w' := by
  cases h with
  | write via e q parents deadline _ _ =>
    exact ⟨(S.append w hw via e q parents deadline).1, (S.append w hw via e q parents deadline).2.1⟩
  | idle _ h => exact ⟨(S.idle w w' hw h).1, (S.idle w w' hw h).2.1⟩

theorem Interferes.current (h : Interferes S p guard w w') (hw : S.Good w) (hd : Distinct S w')
    {a : CausalAtom ι H} (ha : (S.view w').current p = some a) :
    (S.view w).current p = some a ∨ a ∉ S.log w ∧ (∃ v, a.expr = .eConst v) ∧ guard w' := by
  cases h with
  | write via e q parents deadline hconst hguard =>
    rcases (S.append w hw via e q parents deadline).2.2 hd p a ha with hold | ⟨rfl, halike⟩
    · exact Or.inl hold
    · rcases S.fresh w hw via e p parents deadline hd p a ha with hold | hnew
      · exact Or.inl hold
      · obtain ⟨v, rfl⟩ := hconst rfl
        obtain ⟨u, hu, -⟩ := halike.const v rfl
        exact Or.inr ⟨hnew, ⟨u, hu⟩, hguard rfl⟩
  | idle _ h => exact Or.inl ((S.idle w w' hw h).2.2 p a ha)

theorem Sane.rely (hw : Sane S p w) (h : Rely S p held w w') : Sane S p w' where
  good := (h.1.log hw.good).1
  distinct := h.2
  const a ha := by
    rcases h.1.current hw.good h.2 ha with hold | ⟨-, hconst, -⟩
    · exact hw.const a hold
    · exact hconst

theorem Sane.relies (hw : Sane S p w) (h : Relation.ReflTransGen (Rely S p held) w w') : Sane S p w' := by
  induction h with
  | refl => exact hw
  | tail _ hstep ih => exact ih.rely hstep

theorem Sane.log (hw : Sane S p w) (h : Relation.ReflTransGen (Rely S p held) w w') :
    S.log w ⊆ S.log w' := by
  induction h with
  | refl => exact List.Subset.refl _
  | tail hrun hstep ih => exact List.Subset.trans ih (hstep.1.log (hw.relies hrun).good).2.subset

theorem Undisturbed.relies (hw : Sane S p w) (h : Relation.ReflTransGen (Rely S p held) w w')
    (hu : Undisturbed S p held w) : Undisturbed S p held w' := by
  induction h with
  | refl => exact hu
  | tail hrun hstep ih =>
    intro u hheld a ha
    rcases hstep.1.current (hw.relies hrun).good hstep.2 ha with hold | ⟨-, -, hguard⟩
    · exact ih u hheld a hold
    · exact hguard u hheld a ha

theorem Sane.call (hw : Sane S p w) {c : StoreCall ι H} (hc : c.IsRead) :
    Sane S p (S.call w c).2 where
  good := S.shows.keeps w c hw.good hc
  distinct := by
    unfold Distinct
    rw [S.log_read w c hw.good hc]
    exact hw.distinct
  const := by
    rw [S.shows.frame w c hw.good hc]
    exact hw.const

end

/-! ### What holds of the proof -/

/-- A proof of a constant at `p`: a single node, and the hash `h` recorded for it. -/
structure Leaf (p : Str) (h : H) (proof : MaterializedProof ι H) (info : NodeInfo ι H) : Prop where
  root : proof.rootNode = .node info []
  path : info.sourcePath = p
  expr : info.expr = .eConst proof.value
  cached : info.cachedValue = some proof.value
  index : proof.pathToNode.lookup p = some info.addr
  vector : proof.versionVector = (∅ : VersionVector H).insert p h

/-- If the current atom of `p` has the hash `h`, it has the value `v`. -/
structure Paired (S : LawfulStore σ ι H) (p : Str) (w : σ) (v : Value ι) (h : H) : Prop where
  minted : h ∈ (S.log w).map (·.hash)
  value : ∀ a, (S.view w).current p = some a → a.hash = h → a.expr = .eConst v

/-- The proof that a reader of `p` has. -/
def Fresh (S : LawfulStore σ ι H) (p : Str) (w : σ) (proof : MaterializedProof ι H) : Prop :=
  ∃ h info, Leaf p h proof info ∧ Paired S p w proof.value h

variable {proof : MaterializedProof ι H}

section

omit [Inhabited ι]

theorem Paired.interfere (hp : Paired S p w v h) (hw : S.Good w) (hstep : Interferes S p guard w w')
    (hd : Distinct S w') : Paired S p w' v h := by
  obtain ⟨hgood, hlog⟩ := hstep.log hw
  have hsub : (S.log w) ⊆ (S.log w') := hlog.subset
  obtain ⟨b, hb, hbh⟩ := mem_map.1 hp.minted
  refine ⟨mem_map.2 ⟨b, hsub hb, hbh⟩, fun a ha hah => ?_⟩
  rcases hstep.current hw hd ha with hold | ⟨hnew, -, -⟩
  · exact hp.value a hold hah
  · -- a new atom does not have a hash that was given out before
    have hab : a = b := inj_on_of_nodup_map hd (S.logged w' hgood p a ha) (hsub hb)
      (hah.trans hbh.symm)
    exact (hnew (hab ▸ hb)).elim

theorem Fresh.interfere (hp : Fresh S p w proof) (hw : S.Good w) (hstep : Interferes S p guard w w')
    (hd : Distinct S w') : Fresh S p w' proof := by
  obtain ⟨h, info, hleaf, hpaired⟩ := hp
  exact ⟨h, info, hleaf, hpaired.interfere hw hstep hd⟩

theorem Paired.relies (hp : Paired S p w v h) (hw : Sane S p w)
    (hrun : Relation.ReflTransGen (Rely S p held) w w') : Paired S p w' v h := by
  induction hrun with
  | refl => exact hp
  | tail hrun hstep ih => exact ih.interfere (hw.relies hrun).good hstep.1 hstep.2

theorem Paired.call (hp : Paired S p w v h) (hw : S.Good w) {c : StoreCall ι H} (hc : c.IsRead) :
    Paired S p (S.call w c).2 v h := by
  refine ⟨?_, ?_⟩
  · rw [S.log_read w c hw hc]
    exact hp.minted
  · rw [S.shows.frame w c hw hc]
    exact hp.value

theorem outlasts_read {α : Type} {holds : List (Event ι H) → Option (Value ι)}
    {post : List (Event ι H) → α → σ → Prop} {c : StoreCall ι H} (hc : c.IsRead)
    {k : c.op.Res → StoreProg ι H α} (hw : Sane S p w)
    (next : ∀ w', Relation.ReflTransGen (Rely S p (holds history)) w w' → Sane S p w' →
      Sane S p (S.call w' c).2 → S.view (S.call w' c).2 = S.view w' →
      (k ((S.view w').answer c)).Outlasts S.call (fun h => Rely S p (holds h)) post
        (history ++ [⟨c, (S.view w').answer c⟩]) (S.call w' c).2) :
    (call c k).Outlasts S.call (fun h => Rely S p (holds h)) post history w := by
  intro w' hrun
  have hw' := hw.relies hrun
  rw [S.shows.answer w' c hw'.good hc]
  exact next w' hrun hw' (hw'.call hc) (S.shows.frame w' c hw'.good hc)

end

/-! ### Composing -/

omit [Inhabited ι] [DecidableEq H] in
theorem captureNodes_recorded (p : Str) (addr : ℕ) (h : H) :
    (captureNodes ((∅ : GoMap Str ℕ).insert p addr).keys ((∅ : VersionVector H).insert p h) :
      StoreProg ι H (VersionVector H)) = pure ((∅ : VersionVector H).insert p h) := by
  have hkeys : ((∅ : GoMap Str ℕ).insert p addr).keys = [p] := rfl
  rw [hkeys, captureNodes, if_neg fun hnone => ?_, captureNodes]
  rw [GoMap.lookup_insert, if_pos rfl] at hnone
  cases hnone.2

omit [DecidableEq H] in
theorem reduceDirty_eConst (fuel : ℕ) (stats : ReduceStats) (hexpr : info.expr = .eConst v)
    (hclean : info.dirty = false) (hcached : info.cachedValue = none) :
    (reduceDirty fuel (.node info []) stats : StoreProg ι H _) = pure (.ok v, .node (info.settled v) [],
        { stats with cacheMisses := stats.cacheMisses + 1 }) := by
  rw [reduceDirty, hclean, hcached]
  simp only [refresh, hclean, Bool.false_eq_true, and_false, if_false, pure_bind', hexpr,
    arity_eConst]
  rw [reduceDirty.reduceChildren]
  rfl

/-- What a composition of `p` ends with. -/
def ComposedFresh (S : LawfulStore σ ι H) (p : Str) (_ : List (Event ι H))
    (r : Except Fault (MaterializedProof ι H)) (w : σ) : Prop :=
  Sane S p w ∧ ∀ proof, r = .ok proof → Fresh S p w proof

/-- The proof of a constant `v`, of the atom with the hash `source`, with the hash `h` recorded. -/
def leafProof (p : Str) (v : Value ι) (source h : H) : MaterializedProof ι H where
  queryPath := p
  value := v
  versionVector := (∅ : VersionVector H).insert p h
  pathToNode := (∅ : GoMap Str ℕ).insert p 0
  rootNode := .node
    { addr := 0, expr := .eConst v, cachedValue := some v, dirty := false, sourceHash := source
      sourcePath := p } []
  reduceStats := ⟨0, 0, 1⟩

omit [Inhabited ι] [DecidableEq H] in
theorem leaf_leafProof (p : Str) (v : Value ι) (source h : H) :
    Leaf p h (leafProof p v source h) (leafProof p v source h).rootNode.label where
  root := rfl
  path := rfl
  expr := rfl
  cached := rfl
  index := by rw [leafProof, GoMap.lookup_insert, if_pos rfl]; rfl
  vector := rfl

/-- The rest of a composition, from the state `w` on. -/
abbrev ComposesOn (S : LawfulStore σ ι H) (p : Str) (history : List (Event ι H))
    (rest : StoreProg ι H (Except Fault (MaterializedProof ι H))) (w : σ) : Prop :=
  rest.Outlasts S.call (fun h => Rely S p (composeHolds h)) (ComposedFresh S p) history w

theorem composesOn_composeProof (hp : p ≠ []) (fuel : ℕ) (hw : Sane S p w) :
    ComposesOn S p [] (composeProof fuel p) w := by
  unfold composeProof
  rw [ask_bind]
  refine outlasts_read (by trivial) hw fun w₁ _ hw₁ hw₁' hview₁ => ?_
  rw [View.answer_getCurrent]
  cases ha₁ : (S.view w₁).current p with
  | none => exact ⟨hw₁', fun _ h => by cases h⟩
  | some a₁ =>
    obtain rfl : a₁.path = p := S.pathsAgree w₁ hw₁.good hw₁.distinct p a₁ ha₁
    cases fuel with
    | zero => exact ⟨hw₁', fun _ h => by cases h⟩
    | succ fuel =>
      simp only [buildProofNode, ask_bind, call_bind]
      refine outlasts_read (by trivial) hw₁' fun w₂ hrun₂ hw₂ hw₂' hview₂ => ?_
      rw [View.answer_getCurrent]
      cases ha₂ : (S.view w₂).current a₁.path with
      | none =>
        simp only [pure_bind', captureVersionVector, hp, ne_eq, not_false_eq_true, if_true,
          ask_bind, call_bind]
        refine outlasts_read (by trivial) hw₂' fun w₃ hrun₃ hw₃ hw₃' hview₃ => ?_
        rw [View.answer_getCurrent]
        cases ha₃ : (S.view w₃).current a₁.path <;> exact ⟨hw₃', fun _ h => by cases h⟩
      | some a₂ =>
        obtain ⟨v, hv⟩ := hw₂.const a₂ ha₂
        simp only [pure_bind', captureVersionVector, hp, ne_eq, not_false_eq_true, if_true, hv,
          ask_bind, call_bind]
        refine outlasts_read (by trivial) hw₂' fun w₃ hrun₃ hw₃ hw₃' hview₃ => ?_
        rw [View.answer_getCurrent]
        -- the hash that is recorded for the node with the value `v`
        have hend : ∀ h, Paired S a₁.path (S.call w₃ ⟨.given, .getCurrent a₁.path⟩).2 v h →
            ComposedFresh S a₁.path [] (.ok (leafProof a₁.path v a₂.hash h))
              (S.call w₃ ⟨.given, .getCurrent a₁.path⟩).2 := by
          intro h hpaired
          refine ⟨hw₃', fun proof hproof => ?_⟩
          obtain rfl := Except.ok.inj hproof
          exact ⟨h, _, leaf_leafProof a₁.path v a₂.hash h, hpaired⟩
        have hlog : ∀ a, a ∈ S.log w₃ →
            a.hash ∈ (S.log (S.call w₃ ⟨.given, .getCurrent a₁.path⟩).2).map (·.hash) := by
          intro a ha
          rw [S.log_read w₃ _ hw₃.good (by trivial)]
          exact mem_map_of_mem ha
        cases ha₃ : (S.view w₃).current a₁.path with
        | none =>
          simp only [pure_bind', captureNodes_recorded]
          rw [reduceDirty_eConst _ _ rfl rfl rfl]
          refine hend a₁.hash ⟨hlog a₁ ?_, fun a ha => ?_⟩
          · have hlog₁ := S.logged w₁ hw₁.good _ a₁ ha₁
            rw [← S.log_read w₁ ⟨.given, .getCurrent a₁.path⟩ hw₁.good (by trivial)] at hlog₁
            have hlog₂ := hw₁'.log hrun₂ hlog₁
            rw [← S.log_read w₂ ⟨.given, .getCurrent a₁.path⟩ hw₂.good (by trivial)] at hlog₂
            exact hw₂'.log hrun₃ hlog₂
          · rw [hview₃, ha₃] at ha
            cases ha
        | some a₃ =>
          simp only [pure_bind', captureNodes_recorded]
          rw [reduceDirty_eConst _ _ rfl rfl rfl]
          refine hend a₃.hash ⟨hlog a₃ (S.logged w₃ hw₃.good _ a₃ ha₃), fun a ha _ => ?_⟩
          rw [hview₃, ha₃] at ha
          obtain rfl := Option.some.inj ha
          refine Undisturbed.relies hw₂' hrun₃ (fun u hu b hb => ?_) v
            (Expr.constValue_eq_some.2 hv) a₃ ha₃
          rw [hview₂, ha₂] at hb
          obtain rfl := Option.some.inj hb
          exact Expr.constValue_eq_some.1 hu

/-! ### Reducing -/

/-- What a reduction ends with. If it made one call only, its value is current. -/
def ReducedFresh (S : LawfulStore σ ι H) (p : Str) (history : List (Event ι H))
    (r : Except Fault (Value ι) × MaterializedProof ι H) (w : σ) : Prop :=
  Sane S p w ∧ Fresh S p w r.2 ∧
    (history.length = 1 → ∃ a v, (S.view w).current p = some a ∧ a.expr = .eConst v ∧ r.1 = .ok v)

/-- The rest of a reduction, from the state `w` on. -/
abbrev ReducesOn (S : LawfulStore σ ι H) (p : Str) (proof : MaterializedProof ι H)
    (history : List (Event ι H))
    (rest : StoreProg ι H (Except Fault (Value ι) × MaterializedProof ι H)) (w : σ) : Prop :=
  rest.Outlasts S.call (fun h => Rely S p (reduceHolds proof h)) (ReducedFresh S p) history w

omit [Inhabited ι] [DecidableEq H] in
theorem Leaf.marked (hleaf : Leaf p h proof info) (changed : List Str) :
    proof.rootNode.resetDirty.propagateChanges proof.pathToNode changed =
      .node (info.setDirty (isHit proof.pathToNode changed info)) [] := by
  rw [propagateChanges_resetDirty (by rw [hleaf.root, Rose.labels_node]; simp), hleaf.root,
    marked_node, Rose.labels_node]
  simp

omit [Inhabited ι] [DecidableEq H] in
theorem Leaf.settled {h' : H} {info' : NodeInfo ι H} (hleaf : Leaf p h proof info)
    (haddr : info'.addr = info.addr) (hpath : info'.sourcePath = p) (hexpr : info'.expr = .eConst v)
    (stats : ReduceStats) :
    Leaf p h' { proof with
      value := v, rootNode := .node (info'.settled v) []
      versionVector := (∅ : VersionVector H).insert p h', reduceStats := stats }
      (info'.settled v) where
  root := rfl
  path := hpath
  expr := hexpr
  cached := rfl
  index := hleaf.index.trans (congrArg some haddr.symm)
  vector := rfl

omit [Inhabited ι] in
theorem reducesOn_updateVector (hleaf : Leaf p h proof info) (info' : NodeInfo ι H)
    (haddr : info'.addr = info.addr) (hpath : info'.sourcePath = p) (hexpr : info'.expr = .eConst v)
    (stats : ReduceStats) (hlen : 1 ≤ history.length) (hw : Sane S p w)
    (hh : h ∈ (S.log w).map (·.hash)) (hheld : reduceHolds proof history = some v)
    (hu : Undisturbed S p (some v) w) :
    ReducesOn S p proof history (updateVector [p] proof.versionVector >>= fun vv =>
      pure (.ok v, { proof with
        value := v, rootNode := .node (info'.settled v) []
        versionVector := vv, reduceStats := stats })) w := by
  simp only [updateVector, ask_bind, call_bind]
  refine outlasts_read (by trivial) hw fun w' hrun hw' hw'' hview => ?_
  rw [hheld] at hrun
  have hu' := Undisturbed.relies hw hrun hu
  have hlog := S.log_read w' ⟨.inner, .getCurrentHash p⟩ hw'.good (by trivial)
  have hend : ∀ h', h' ∈ (S.log w').map (·.hash) → ReducedFresh S p
      (history ++ [⟨⟨.inner, .getCurrentHash p⟩, (S.view w').currentHash p⟩])
      (.ok v, { proof with
        value := v, rootNode := .node (info'.settled v) []
        versionVector := (∅ : VersionVector H).insert p h', reduceStats := stats })
      (S.call w' ⟨.inner, .getCurrentHash p⟩).2 := by
    intro h' hh'
    refine ⟨hw'', ⟨h', _, hleaf.settled haddr hpath hexpr stats, hlog ▸ hh', fun a ha _ => ?_⟩, ?_⟩
    · exact hu' v rfl a (hview ▸ ha)
    · rw [length_append, length_singleton]
      omega
  rw [View.answer_getCurrentHash]
  cases hhash : (S.view w').currentHash p with
  | none =>
    rw [hhash] at hend
    simp only [hleaf.vector]
    obtain ⟨a, ha, hah⟩ := mem_map.1 hh
    exact hend h (mem_map.2 ⟨a, hw.log hrun ha, hah⟩)
  | some h' =>
    rw [hhash] at hend
    obtain ⟨a, ha, rfl⟩ := Option.map_eq_some_iff.1 hhash
    simp only [hleaf.vector, AList.insert_insert]
    exact hend a.hash (mem_map_of_mem (S.logged w' hw'.good p a ha))

theorem reducesOn_reduceIncremental (hp : p ≠ []) (fuel : ℕ) (hw : Sane S p w)
    (hfresh : Fresh S p w proof) : ReducesOn S p proof [] (reduceIncremental fuel proof) w := by
  obtain ⟨h, info, hleaf, hpaired⟩ := hfresh
  obtain rfl := hleaf.path
  have hentries : proof.versionVector.entries = [⟨info.sourcePath, h⟩] := by rw [hleaf.vector]; rfl
  unfold reduceIncremental
  rw [ask_bind]
  refine outlasts_read (by trivial) hw fun w₁ hrun₁ hw₁ hw₁' hview₁ => ?_
  have hpaired₁ := (hpaired.relies hw hrun₁).call hw₁.good
    (show StoreCall.IsRead ⟨.inner, .verifyVersionVector proof.versionVector⟩ by trivial)
  rw [View.answer_verifyVersionVector, hentries, all_cons, all_nil, Bool.and_true]
  cases hch : (S.view w₁).changed ⟨info.sourcePath, h⟩ with
  | false =>
    refine ⟨hw₁', ⟨h, info, ⟨hleaf.root, hleaf.path, hleaf.expr, hleaf.cached, hleaf.index,
      hleaf.vector⟩, hpaired₁⟩, fun _ => ?_⟩
    obtain ⟨a, ha, hah⟩ := View.changed_eq_false_iff.1 hch
    rw [← hview₁] at ha
    exact ⟨a, proof.value, ha, hpaired₁.value a ha hah, rfl⟩
  | true =>
    simp only [Bool.not_true, reduceChanged, ask_bind]
    refine outlasts_read (by trivial) hw₁' fun w₂ hrun₂ hw₂ hw₂' hview₂ => ?_
    have hpaired₂ := (hpaired₁.relies hw₁' hrun₂).call hw₂.good
      (show StoreCall.IsRead ⟨.inner, .findChangedPaths proof.versionVector⟩ by trivial)
    rw [View.answer_findChangedPaths, hentries]
    simp only [hleaf.marked]
    cases hch₂ : (S.view w₂).changed ⟨info.sourcePath, h⟩ with
    | false =>
      simp only [filter_cons, hch₂, filter_nil, Bool.false_eq_true, if_false, map_nil]
      rw [show isHit proof.pathToNode [] info = false from rfl, reduceDirty]
      simp only [NodeInfo.setDirty, hleaf.cached, pure_bind', updateVector]
      exact ⟨hw₂', ⟨h, _, ⟨rfl, rfl, hleaf.expr, rfl, hleaf.index, hleaf.vector⟩, hpaired₂⟩,
        fun h => by cases h⟩
    | true =>
      simp only [filter_cons, hch₂, filter_nil, if_true, map_cons, map_nil]
      have hhit : isHit proof.pathToNode [info.sourcePath] info = true := by
        simp [isHit, hleaf.index]
      rw [hhit, reduceDirty]
      simp only [NodeInfo.setDirty, refresh, hp, ne_eq, not_false_eq_true, true_and, if_true,
        ask_bind, call_bind]
      refine outlasts_read (by trivial) hw₂' fun w₃ hrun₃ hw₃ hw₃' hview₃ => ?_
      have hpaired₃ := (hpaired₂.relies hw₂' hrun₃).call hw₃.good
        (show StoreCall.IsRead ⟨.inner, .getCurrent info.sourcePath⟩ by trivial)
      rw [View.answer_getCurrent]
      cases ha₃ : (S.view w₃).current info.sourcePath with
      | none =>
        simp only [pure_bind', hleaf.expr, arity_eConst]
        rw [reduceDirty.reduceChildren]
        refine reducesOn_updateVector hleaf { info with expr := .eConst proof.value, dirty := true }
          rfl rfl rfl _ (by simp) hw₃' hpaired₃.minted rfl fun u hu a ha => ?_
        rw [hview₃, ha₃] at ha
        cases ha
      | some a₃ =>
        obtain ⟨v, hv⟩ := hw₃.const a₃ ha₃
        simp only [pure_bind', hv, arity_eConst]
        rw [reduceDirty.reduceChildren]
        refine reducesOn_updateVector hleaf
          { info with expr := .eConst v, sourceHash := a₃.hash, dirty := true }
          rfl rfl rfl _ (by simp) hw₃' hpaired₃.minted (Expr.constValue_eq_some.2 hv)
          fun u hu a ha => ?_
        rw [hview₃, ha₃] at ha
        obtain rfl := Option.some.inj ha
        exact hv.trans (congrArg _ (Option.some.inj hu))

/-! ### Interleavings -/

/-- What is known of the reader when the store is in the state `w`. -/
def Reader.Inv (S : LawfulStore σ ι H) (p : Str) (w : σ) : Reader ι H → Prop
  | .composing _ (.ret r) => ∀ proof, r = .ok proof → Fresh S p w proof
  | .composing history (.call c k) => ComposesOn S p history (.call c k) w
  | .holding proof => Fresh S p w proof
  | .reducing _ _ (.ret r) => Fresh S p w r.2
  | .reducing proof history (.call c k) => ReducesOn S p proof history (.call c k) w

omit [Inhabited ι] in
theorem Reader.inv_composing {rest : StoreProg ι H (Except Fault (MaterializedProof ι H))}
    (h : ComposesOn S p history rest w) : Reader.Inv S p w (.composing history rest) := by
  cases rest with
  | ret r => exact h.2
  | call c k => exact h

omit [Inhabited ι] in
theorem Reader.inv_reducing {rest : StoreProg ι H (Except Fault (Value ι) × MaterializedProof ι H)}
    (h : ReducesOn S p proof history rest w) : Reader.Inv S p w (.reducing proof history rest) := by
  cases rest with
  | ret r => exact h.2.1
  | call c k => exact h

def Reader.Reads : Reader ι H → Prop
  | .composing _ rest => Engine.Reads rest
  | .holding _ => True
  | .reducing _ _ rest => Engine.Reads rest

/-- What holds at every point of a race. -/
structure Race.Inv (S : LawfulStore σ ι H) (p : Str) (c : Race σ ι H) : Prop where
  sane : Sane S p c.store
  reads : c.reader.Reads
  reader : c.reader.Inv S p c.store

omit [Inhabited ι] in
theorem Race.Inv.interfere {c : Race σ ι H} (hc : c.Inv S p)
    (h : Interferes S p (Undisturbed S p c.reader.holds) c.store w) (hd : Distinct S w) :
    Race.Inv S p { c with store := w } := by
  refine ⟨hc.sane.rely ⟨h, hd⟩, hc.reads, ?_⟩
  have hreader := hc.reader
  obtain ⟨w₀, reader⟩ := c
  cases reader with
  | holding proof => exact hreader.interfere hc.sane.good h hd
  | composing history rest =>
    cases rest with
    | ret r => exact fun proof hr => (hreader proof hr).interfere hc.sane.good h hd
    | call c k =>
      have hrest : ComposesOn S p history (.call c k) w₀ := hreader
      exact hrest.interfere ⟨h, hd⟩
  | reducing proof history rest =>
    cases rest with
    | ret r => exact Fresh.interfere hreader hc.sane.good h hd
    | call c k =>
      have hrest : ReducesOn S p proof history (.call c k) w₀ := hreader
      exact hrest.interfere ⟨h, hd⟩

omit [Inhabited ι] in
theorem Race.Inv.advance {c : Race σ ι H} (hc : c.Inv S p) : (c.advance S).Inv S p := by
  obtain ⟨w, reader⟩ := c
  obtain ⟨hsane, hreads, hreader⟩ := hc
  cases reader with
  | holding proof => exact ⟨hsane, hreads, hreader⟩
  | composing history rest =>
    cases rest with
    | ret r =>
      cases r with
      | error f => exact ⟨hsane, hreads, hreader⟩
      | ok proof => exact ⟨hsane, trivial, hreader proof rfl⟩
    | call c k =>
      have hrest : ComposesOn S p history (.call c k) w := hreader
      exact ⟨hsane.call hreads.1, hreads.2 _, Reader.inv_composing hrest.advance⟩
  | reducing proof history rest =>
    cases rest with
    | ret r => exact ⟨hsane, trivial, hreader⟩
    | call c k =>
      have hrest : ReducesOn S p proof history (.call c k) w := hreader
      exact ⟨hsane.call hreads.1, hreads.2 _, Reader.inv_reducing hrest.advance⟩

theorem Race.Inv.step (hp : p ≠ []) {c c' : Race σ ι H} (hc : c.Inv S p) (hd : Distinct S c'.store)
    (h : Race.Step S p (Undisturbed S p) c c') : c'.Inv S p := by
  cases h with
  | interfere w h => exact hc.interfere h hd
  | begin fuel proof h =>
    refine ⟨hc.sane, reads_reduceIncremental fuel proof, Reader.inv_reducing ?_⟩
    have hfresh := hc.reader
    rw [h] at hfresh
    exact reducesOn_reduceIncremental hp fuel hc.sane hfresh
  | advance => exact hc.advance

theorem Race.Step.log {guard : Option (Value ι) → σ → Prop} {c c' : Race σ ι H}
    (h : Race.Step S p guard c c') (hc : c.reader.Reads) (hs : S.Good c.store) :
    S.Good c'.store ∧ S.log c.store <:+ S.log c'.store ∧ c'.reader.Reads := by
  cases h with
  | interfere w h => exact ⟨(h.log hs).1, (h.log hs).2, hc⟩
  | begin fuel proof _ => exact ⟨hs, suffix_rfl, reads_reduceIncremental fuel proof⟩
  | advance =>
    obtain ⟨w, reader⟩ := c
    cases reader with
    | holding proof => exact ⟨hs, suffix_rfl, hc⟩
    | composing history rest =>
      cases rest with
      | ret r => cases r <;> exact ⟨hs, suffix_rfl, trivial⟩
      | call c k =>
        exact ⟨S.shows.keeps w c hs hc.1, (S.log_read w c hs hc.1).symm ▸ suffix_rfl, hc.2 _⟩
    | reducing proof history rest =>
      cases rest with
      | ret r => exact ⟨hs, suffix_rfl, trivial⟩
      | call c k =>
        exact ⟨S.shows.keeps w c hs hc.1, (S.log_read w c hs hc.1).symm ▸ suffix_rfl, hc.2 _⟩

theorem Race.Run.log {guard : Option (Value ι) → σ → Prop} {c c' : Race σ ι H}
    (h : Race.Run S p guard c c') (hc : c.reader.Reads) (hs : S.Good c.store) :
    S.Good c'.store ∧ S.log c.store <:+ S.log c'.store ∧ c'.reader.Reads := by
  induction h with
  | refl => exact ⟨hs, suffix_rfl, hc⟩
  | tail _ hstep ih =>
    obtain ⟨hgood, hlog, hreads⟩ := hstep.log ih.2.2 ih.1
    exact ⟨hgood, ih.2.1.trans hlog, hreads⟩

theorem Race.Inv.of_run (hp : p ≠ []) {c c' : Race σ ι H} (hc : c.Inv S p)
    (hrun : Race.Run S p (Undisturbed S p) c c') (hd : Distinct S c'.store) : c'.Inv S p := by
  induction hrun with
  | refl => exact hc
  | tail hrun hstep ih =>
    obtain ⟨hgood, -, hreads⟩ := Race.Run.log hrun hc.reads hc.sane.good
    exact (ih (hd.of_suffix (hstep.log hreads hgood).2.1)).step hp hd hstep

/-- From the state `w` on: a reader composes a proof of `p`, which has a constant, if anything, and
reduces it, while others append to the store. If a write to `p` between the call that reads the node's
atom and the one that reads its hash leaves `p` with the value the reader has got, then whenever the
version vector matches, the value that is returned is that of the current atom. -/
def NeverStale (S : LawfulStore σ ι H) (w : σ) : Prop :=
  ∀ (fuel : ℕ) (p : Str), p ≠ [] →
    (∀ a, (S.view w).current p = some a → ∃ v, a.expr = .eConst v) →
    ∀ c, Race.Run S p (Undisturbed S p) (Race.start fuel p w) c → Distinct S c.store →
      c.HitsFresh S p

theorem neverStale_of_good (hw : S.Good w) : NeverStale S w := by
  intro fuel p hp hconst c hrun hd r hr
  have hreads : (Race.start fuel p w : Race σ ι H).reader.Reads := reads_composeProof fuel p
  have hsane : Sane S p w := ⟨hw, hd.of_suffix (Race.Run.log hrun hreads hw).2.1, hconst⟩
  have hstart : (Race.start fuel p w : Race σ ι H).Inv S p :=
    ⟨hsane, hreads, Reader.inv_composing (composesOn_composeProof hp fuel hsane)⟩
  have hinv := (hstart.of_run hp hrun hd).reader
  unfold Race.hit at hr
  split at hr
  · rename_i proof rest hreader
    rw [hreader] at hinv
    cases rest with
    | ret r => cases hr
    | call c k =>
      have hrest : ReducesOn S p proof [] (.call c k) _ := hinv
      obtain ⟨e, -, -, hhit⟩ := hrest.afterCall hr
      exact hhit rfl
  · cases hr

end

/-- **A version vector that matches stands for the current value**, over the sharded cache and over
the crystal. -/
theorem version_hit_is_current {H : Type} [DecidableEq H] [Hashing H] :
    (∀ w : World Unit H, w.Reachable → NeverStale (World.lawful Unit H) w) ∧
      (∀ w : CrystalWorld Unit H, w.Reachable → NeverStale (CrystalWorld.lawful Unit H) w) :=
  ⟨fun _ hw => neverStale_of_good hw.inv, fun _ hw => neverStale_of_good hw.inv⟩

section Instances

local instance flatHashing : Hashing Str := ⟨id, id, fun _ => 0⟩

def onePath : World Unit Str := ((World.init 0 0).append (.eConst (.vInt 1)) (str "k") zeroTime).2

theorem onePath_reachable : onePath.Reachable := (World.reachable_init 0 0).append _ _ _

def move (c : Race (World Unit Str) Unit Str) : Race (World Unit Str) Unit Str :=
  c.advance (World.lawful Unit Str)

def setK (v : Int64) (c : Race (World Unit Str) Unit Str) : Race (World Unit Str) Unit Str :=
  { c with store := (c.store.append (.eConst (.vInt v)) (str "k") zeroTime).2 }

def again (c : Race (World Unit Str) Unit Str) : Race (World Unit Str) Unit Str :=
  match c.reader with
  | .holding proof => { c with reader := .reducing proof [] (reduceIncremental 0 proof) }
  | _ => c

def halfway : Race (World Unit Str) Unit Str := move (move (Race.start 1 (str "k") onePath))

def raced (v : Int64) : Race (World Unit Str) Unit Str := again (move (move (setK v halfway)))

theorem run_raced {guard : Option (Value Unit) → World Unit Str → Prop} {v : Int64}
    (h : guard halfway.reader.holds (setK v halfway).store) :
    Race.Run (World.lawful Unit Str) (str "k") guard (Race.start 1 (str "k") onePath) (raced v) := by
  have hset : Race.Step (World.lawful Unit Str) (str "k") guard halfway (setK v halfway) :=
    .interfere _ (.write .given (.eConst (.vInt v)) (str "k") [] zeroTime (fun _ => ⟨_, rfl⟩)
      fun _ => h)
  have hagain : ∀ c, Race.Run (World.lawful Unit Str) (str "k") guard c (again c) := by
    intro c
    unfold again
    split
    · rename_i proof hproof
      exact .single (.begin 0 proof hproof)
    · exact .refl
  exact ((((Relation.ReflTransGen.single .advance).tail .advance).tail hset).tail
    .advance).tail .advance |>.trans (hagain _)

/-- A write that comes between the two calls: the old value is cached under the new hash, and is
returned from then on. -/
theorem version_hit_stale : onePath.Reachable ∧
    ∃ c, Race.Run (World.lawful Unit Str) (str "k") (fun _ _ => True)
        (Race.start 1 (str "k") onePath) c ∧ Distinct (World.lawful Unit Str) c.store ∧
      ¬ c.HitsFresh (World.lawful Unit Str) (str "k") := by
  have htest : ((raced 2).store.log.map (·.hash)).Nodup ∧
      ((raced 2).hit (World.lawful Unit Str)).any (fun r =>
        r.1.1.toOption = some (.vInt 1) ∧
          (r.2.current (str "k")).map (·.expr) = some (.eConst (.vInt 2))) = true := by
    decide +kernel
  obtain ⟨hnd, hhit⟩ := htest
  obtain ⟨r, hr, hstale⟩ := (Option.any_eq_true _ _).1 hhit
  simp only [decide_eq_true_eq] at hstale
  refine ⟨onePath_reachable, raced 2, run_raced trivial, hnd, fun hfresh => ?_⟩
  obtain ⟨a, v, ha, hv, hr⟩ := hfresh r hr
  have hcur : (r.2.current (str "k")).map (·.expr) = some (.eConst v) := by
    rw [show r.2.current (str "k") = some a from ha, Option.map_some, hv]
  rw [hr, hcur] at hstale
  obtain ⟨hval, hexpr⟩ := hstale
  have hone : v = .vInt 1 := Option.some.inj hval
  have htwo : v = .vInt 2 := Expr.eConst.inj (Option.some.inj hexpr)
  exact absurd (hone.symm.trans htwo) (by decide)

theorem version_hit_is_current_same_value :
    ∃ r a v, (raced 1).hit (World.lawful Unit Str) = some r ∧ r.2.current (str "k") = some a ∧
      a.expr = .eConst v ∧ r.1.1 = .ok v := by
  have htest : ((raced 1).store.log.map (·.hash)).Nodup ∧
      ((raced 1).hit (World.lawful Unit Str)).isSome = true ∧
      halfway.reader.holds = some (.vInt 1) ∧
      (((setK 1 halfway).store.current (str "k")).map (·.expr) = some (.eConst (.vInt 1))) ∧
      ((onePath.current (str "k")).map (·.expr) = some (.eConst (.vInt 1))) := by decide +kernel
  obtain ⟨hnd, hhit, hholds, hset, hone⟩ := htest
  obtain ⟨r, hr⟩ := Option.isSome_iff_exists.1 hhit
  have hconst : ∀ a, onePath.current (str "k") = some a → ∃ v, a.expr = .eConst v := by
    intro a ha
    rw [ha] at hone
    exact ⟨_, Option.some.inj hone⟩
  have hguard : Undisturbed (World.lawful Unit Str) (str "k") halfway.reader.holds
      (setK 1 halfway).store := by
    intro u hu a ha
    rw [show (setK 1 halfway).store.current (str "k") = some a from ha] at hset
    rw [hholds] at hu
    rw [← Option.some.inj hu]
    exact Option.some.inj hset
  obtain ⟨a, v, ha, hv, hres⟩ := version_hit_is_current.1 onePath onePath_reachable 1 (str "k")
    (by decide) hconst (raced 1) (run_raced hguard) hnd r hr
  exact ⟨r, a, v, hr, ha, hv, hres⟩

end Instances

end Wavicle.Engine
