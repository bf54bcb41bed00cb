import Wavicle.Engine.Unfolding
import Wavicle.Engine.Sessions
import Wavicle.Storage.CrystalSpec

/-! # Two evaluators

`ComposeProof` reduces a tree of nodes, `reduceTree` recurses on the expression. `buildProofNode` gives children
to composites only, so below a field access or an application `ComposeProof` panics. -/

namespace Wavicle.Engine

open Lib Wavicle.Core Storage

section

variable {ι H : Type} [Inhabited ι] [DecidableEq H] [Hashing H] {V : View ι H} {e : Expr ι H}
  {d : Value ι}

/-! ### What `ComposeProof` returns -/

omit [Inhabited ι] [DecidableEq H] [Hashing H] in
theorem childPaths_of_current {hs : List H} {atom : H → CausalAtom ι H}
    (found : ∀ h ∈ hs, V.atom h = some (atom h))
    (current : ∀ h ∈ hs, V.current (atom h).path = some (atom h)) :
    childPaths V (.eCompose hs) = hs.map fun h => (atom h).path := by
  rw [childPaths, ← List.filterMap_eq_map]
  refine List.filterMap_congr fun h hmem => ?_
  rw [childPath, found h hmem, Option.bind_some, current h hmem]
  rfl

omit [Inhabited ι] [DecidableEq H] [Hashing H] in
theorem childPaths_leaf (he : ∀ hs, e ≠ .eCompose hs) : childPaths V e = [] := by
  cases e with
  | eCompose hs => exact absurd rfl (he hs)
  | _ => rfl

variable {a : CausalAtom ι H} {r : Except Fault (Value ι)}

omit [Inhabited ι] [DecidableEq H] [Hashing H] in
theorem FromView.leadsTo_iff (t : ProofNode ι H) (ht : FromView V t)
    (ha : V.current t.label.sourcePath = some a) (hg : Grounded V a.expr) (e : Expr ι H) :
    LeadsTo V a.expr e ↔ ∃ info ∈ t.labels, info.expr = e := by
  induction t using Rose.induct generalizing a with
  | node info cs ih =>
    cases ht with
    | node _ _ atom cur expr _ _ _ paths below =>
      rw [Rose.label_node, cur] at ha
      obtain rfl := Option.some.inj ha
      rw [Rose.labels_node]
      by_cases hleaf : ∀ hs, atom.expr ≠ .eCompose hs
      · rw [childPaths_leaf hleaf] at paths
        obtain rfl := List.map_eq_nil_iff.1 paths
        rw [leadsTo_leaf hleaf, ← expr]
        simp [eq_comm]
      · obtain ⟨hs, he⟩ : ∃ hs, atom.expr = .eCompose hs := by
          simpa only [ne_eq, not_forall, not_not] using hleaf
        rw [he] at hg
        cases hg with
        | compose _ atoms found current grounded =>
          rw [he, childPaths_of_current found current] at paths
          rw [he, leadsTo_compose found]
          constructor
          · rintro (rfl | ⟨h, hmem, hlead⟩)
            · exact ⟨info, List.mem_cons_self, expr.trans he⟩
            · obtain ⟨c, hc, hpath⟩ : ∃ c ∈ cs, c.label.sourcePath = (atoms h).path :=
                List.mem_map.1 (paths ▸ List.mem_map_of_mem hmem)
              obtain ⟨i, hi, hie⟩ := (ih c hc (below c hc) (hpath ▸ current h hmem)
                (grounded h hmem)).1 hlead
              exact ⟨i, List.mem_cons_of_mem _ (List.mem_flatMap.2 ⟨c, hc, hi⟩), hie⟩
          · rintro ⟨i, hi, rfl⟩
            rcases List.mem_cons.1 hi with rfl | hi
            · exact Or.inl (expr.trans he)
            · obtain ⟨c, hc, hi⟩ := List.mem_flatMap.1 hi
              obtain ⟨h, hmem, hpath⟩ : ∃ h ∈ hs, (atoms h).path = c.label.sourcePath :=
                List.mem_map.1 (paths ▸ List.mem_map_of_mem hc)
              exact Or.inr ⟨h, hmem, (ih c hc (below c hc) (hpath ▸ current h hmem)
                (grounded h hmem)).2 ⟨i, hi, rfl⟩⟩

omit [Inhabited ι] [DecidableEq H] [Hashing H] in
theorem FromView.plain_iff {t : ProofNode ι H} (ht : FromView V t)
    (ha : V.current t.label.sourcePath = some a) (hg : Grounded V a.expr) :
    Plain V t ↔ PlainBelow V a.expr := by
  have hclean : ∀ info ∈ t.labels, info.refreshed V = info := fun info hi =>
    refreshed_of_clean V (ht.current t info hi).1
  constructor
  · intro h e he
    obtain ⟨info, hi, rfl⟩ := (ht.leadsTo_iff t ha hg e).1 he
    exact hclean info hi ▸ h info hi
  · intro h info hi
    rw [hclean info hi]
    exact h _ ((ht.leadsTo_iff t ha hg _).2 ⟨info, hi, rfl⟩)

theorem map_eq_map_of {α β γ δ : Type} {f : α → γ} {g : β → γ} {f' : α → δ} {g' : β → δ} :
    ∀ {l : List α} {m : List β}, l.map f = m.map g →
      (∀ x ∈ l, ∀ y ∈ m, f x = g y → f' x = g' y) → l.map f' = m.map g'
  | [], [], _, _ => rfl
  | [], _ :: _, h, _ => by cases h
  | _ :: _, [], h, _ => by cases h
  | x :: l, y :: m, h, hfg => by
    rw [List.map_cons, List.map_cons, List.cons.injEq] at h
    rw [List.map_cons, List.map_cons, hfg x (.head _) y (.head _) h.1,
      map_eq_map_of h.2 fun x' hx y' hy => hfg x' (.tail _ hx) y'
        (.tail _ hy)]

omit [DecidableEq H] [Hashing H] in
theorem FromView.cached_reduced (t : ProofNode ι H) (ht : FromView V t)
    (ha : V.current t.label.sourcePath = some a) (hd : Unfolds V a.expr d) : (reduced V t).cached = d := by
  induction t using Rose.induct generalizing a d with
  | node info cs ih =>
    cases ht with
    | node _ _ atom cur expr _ fresh clean paths below =>
      rw [Rose.label_node, cur] at ha
      obtain rfl := Option.some.inj ha
      have hexpr : (info.refreshed V).expr = atom.expr := by rw [refreshed_of_clean V clean, expr]
      generalize he : atom.expr = e at hd
      cases hd with
      | const u =>
        rw [reduced_of_eConst V (.inr fresh) (hexpr.trans he)]
        rfl
      | compose hs atoms value found current sub =>
        rw [he, childPaths_of_current found current] at paths
        rw [reduced_of_eCompose V (.inr fresh) (hexpr.trans he)]
        have hfields : cs.map (fun c => (reduced V c).field) =
            hs.map fun h => ((atoms h).path, value h) := by
          refine map_eq_map_of paths fun c hc h hmem hpath => ?_
          rw [ProofNode.field, sourcePath_reduced, hpath,
            ih c hc (below c hc) (hpath ▸ current h hmem) (sub h hmem)]
        rw [hfields]
        rfl

/-- With enough fuel a tree is built for every path whose current expression is `e`. -/
def Buildable (V : View ι H) (e : Expr ι H) : Prop :=
  ∃ bound, ∀ fuel ≥ bound, ∀ path a b, V.current path = some a → a.expr = e → ∃ t b',
    (buildProofNode fuel path b : StoreProg ι H _).eval V.answer = (.ok (some t), b')

omit [Inhabited ι] [Hashing H] in
theorem buildable_leaf (he : ∀ hs, e ≠ .eCompose hs) : Buildable V e := by
  refine ⟨1, fun fuel hfuel path a b ha hexpr => ?_⟩
  obtain ⟨n, rfl⟩ := Nat.exists_eq_add_of_le' hfuel
  subst hexpr
  rw [buildProofNode]
  simp only [Prog.eval_bind, Prog.eval_ask, View.answer_getCurrent, ha]
  exact ⟨_, _, rfl⟩

omit [Inhabited ι] [Hashing H] in
theorem Grounded.buildable (h : Grounded V e) : Buildable V e := by
  induction h with
  | const v => exact buildable_leaf fun _ h => by cases h
  | fieldAccess => exact buildable_leaf fun _ h => by cases h
  | apply => exact buildable_leaf fun _ h => by cases h
  | compose hs atom found current below ih =>
    obtain ⟨bound, hbound⟩ := exists_bound ih
    refine ⟨bound + 1, fun fuel hfuel path a b ha hexpr => ?_⟩
    obtain ⟨n, rfl⟩ := Nat.exists_eq_add_of_le' (Nat.le_of_add_left_le hfuel)
    have hchild : ∀ h ∈ hs, ∀ c, V.atom h = some c → ∀ b,
        ∃ t b', (buildProofNode n c.path b).eval V.answer = (.ok (some t), b') := by
      intro h hmem c hc b
      obtain rfl := Option.some.inj ((found h hmem).symm.trans hc)
      exact hbound n (Nat.le_of_succ_le_succ hfuel) h hmem _ _ b (current h hmem) rfl
    obtain ⟨cs, b', hcs⟩ := eval_buildChildren_ok (buildProofNode n) hs hchild
      ⟨b.next + 1, b.pathIndex.insert path b.next⟩
    rw [buildProofNode]
    simp only [Prog.eval_bind, Prog.eval_ask, View.answer_getCurrent, ha, hexpr, hcs, Prog.eval_pure]
    exact ⟨_, _, rfl⟩

omit [Hashing H] in
theorem eval_composeProof {fuel : ℕ} {path : Str} {t root : ProofNode ι H} {b : Builder}
    {stats : ReduceStats} (ha : V.current path = some a)
    (hbuild : (buildProofNode fuel path ⟨0, ∅⟩ : StoreProg ι H _).eval V.answer = (.ok (some t), b))
    (hred : (reduceDirty fuel t ⟨0, 0, 0⟩).eval V.answer = (r, root, stats)) :
    (∃ proof : MaterializedProof ι H, (composeProof fuel path).eval V.answer = .ok proof ∧
        r = .ok proof.value) ∨
      ∃ f, r = .error f ∧ (composeProof fuel path : StoreProg ι H _).eval V.answer =
        .error (if f = .fuel then .fuel else .panic) := by
  unfold composeProof
  simp only [Prog.eval_bind, Prog.eval_ask, View.answer_getCurrent, ha, hbuild, hred]
  cases r with
  | ok v => exact Or.inl ⟨_, rfl, rfl⟩
  | error f => exact Or.inr ⟨f, rfl, rfl⟩

/-! ### Agreement -/

/-- What it is for `ComposeProof` and `reduceTree` to agree, on a store with the view `V`: with enough
fuel both return one value, or both report an error. -/
def AgreeOn (V : View ι H) (path : Str) (e : Expr ι H) : Prop :=
  ∃ bound, ∀ fuel ≥ bound,
    (∃ proof : MaterializedProof ι H, (composeProof fuel path).eval V.answer = .ok proof ∧
      (reduceProofTree fuel e).eval V.answer = .ok proof.value) ∨
    ∃ msg msg', (composeProof fuel path : StoreProg ι H _).eval V.answer = .error (.error msg) ∧
      (reduceProofTree fuel e).eval V.answer = .error (.error msg')

theorem eval_reduceProofTree {fuel : ℕ} : (reduceProofTree fuel e).eval V.answer = r ↔
      ∃ T, (reduceTree fuel e ∅).eval V.answer = (r, T) := by
  unfold reduceProofTree
  simp only [Prog.eval_bind]
  constructor
  · rintro rfl
    exact ⟨_, rfl⟩
  · rintro ⟨T, hT⟩
    rw [hT]
    rfl

variable {path : Str} {a : CausalAtom ι H} (ha : V.current path = some a)
  (hg : Grounded V a.expr)

include ha hg

omit [Hashing H] in
/-- `ComposeProof`, with enough fuel: the value that the path spells out to, or no value and no error
either, if something else than constants and composites is below the path. -/
theorem composeProof_outcome : ∃ bound, ∀ fuel ≥ bound,
    (PlainBelow V a.expr ∧ ∃ proof : MaterializedProof ι H,
      (composeProof fuel path).eval V.answer = .ok proof ∧ Unfolds V a.expr proof.value) ∨
    ¬ PlainBelow V a.expr ∧ ∃ f, (composeProof fuel path : StoreProg ι H _).eval V.answer =
      .error f ∧ ∀ msg, f ≠ .error msg := by
  obtain ⟨bound, hbound⟩ := hg.buildable
  refine ⟨bound, fun fuel hfuel => ?_⟩
  obtain ⟨t, b, hbuild⟩ := hbound fuel hfuel path a ⟨0, ∅⟩ ha rfl
  obtain ⟨ht, hpath, -⟩ := buildProofNode_spec V fuel path _ _ _ hbuild
  have ha' : V.current t.label.sourcePath = some a := hpath ▸ ha
  obtain ⟨r, root, stats, hred⟩ : ∃ r root stats,
    (reduceDirty fuel t ⟨0, 0, 0⟩).eval V.answer = (r, root, stats) := ⟨_, _, _, rfl⟩
  by_cases hbelow : PlainBelow V a.expr
  · obtain ⟨d, hd⟩ := hg.unfolds hbelow
    obtain ⟨stats', hcomp, -⟩ :=
      computes_of_plain fuel V t ((ht.plain_iff ha' hg).2 hbelow) ⟨0, 0, 0⟩
    rw [hred, ht.cached_reduced t ha' hd] at hcomp
    obtain rfl := (Prod.mk.inj hcomp).1
    rcases eval_composeProof ha hbuild hred with ⟨proof, hproof, hvalue⟩ | ⟨f, hbad, -⟩
    · exact Or.inl ⟨hbelow, proof, hproof, Except.ok.inj hvalue ▸ hd⟩
    · cases hbad
  · rcases eval_composeProof ha hbuild hred with ⟨proof, -, rfl⟩ | ⟨f, -, hf⟩
    · exact absurd ((ht.plain_iff ha' hg).1 (ht.plain t ⟨_, _, _, hred⟩)) hbelow
    · refine Or.inr ⟨hbelow, _, hf, fun msg => ?_⟩
      split_ifs <;> exact fun h => by cases h

theorem plainBelow_of_agreeOn (h : AgreeOn V path a.expr) : PlainBelow V a.expr := by
  obtain ⟨bound, hbound⟩ := composeProof_outcome ha hg
  obtain ⟨bound', hagree⟩ := h
  rcases hbound (max bound bound') (le_max_left _ _) with ⟨hbelow, -⟩ | ⟨-, f, hf, hmsg⟩
  · exact hbelow
  · rcases hagree (max bound bound') (le_max_right _ _) with ⟨proof, hok, -⟩ | ⟨msg, msg', herr, -⟩
    · rw [hf] at hok
      cases hok
    · rw [hf] at herr
      exact absurd (Except.error.inj herr) (hmsg msg)

theorem agreeOn_iff [Digests H] (hnc : NoCollision V a.expr) :
    AgreeOn V path a.expr ↔ PlainBelow V a.expr ∧ ToldApart V a.expr := by
  obtain ⟨bound, hbound⟩ := composeProof_outcome ha hg
  constructor
  · intro hagree
    have hbelow := plainBelow_of_agreeOn ha hg hagree
    obtain ⟨bound', hagree⟩ := hagree
    refine ⟨hbelow, fun v₁ v₂ h₁ h₂ hbytes => ?_⟩
    rcases hbound (max bound bound') (le_max_left _ _) with ⟨-, proof, hproof, hd⟩ | ⟨hnot, -⟩
    · have hfuel := hagree (max bound bound') (le_max_right _ _)
      rw [hproof] at hfuel
      rcases hfuel with ⟨proof', hproof', htree⟩ | ⟨msg, msg', hbad, -⟩
      · obtain rfl := Except.ok.inj hproof'
        obtain ⟨T, hT⟩ := eval_reduceProofTree.1 htree
        have hcov := (covers_of_eval hnc hd .refl (explained_empty _) hT).2
        obtain ⟨d₁, hd₁, hk₁⟩ := hcov _ h₁
        obtain ⟨d₂, hd₂, hk₂⟩ := hcov _ h₂
        cases hd₁
        cases hd₂
        -- the two constants have one entry
        have hhash : (Expr.eConst v₁ : Expr ι H).exprHash = (Expr.eConst v₂ : Expr ι H).exprHash := by
          rw [Expr.exprHash, Expr.exprHash, Expr.serialize, Expr.serialize, hbytes]
        rw [hhash, hk₂] at hk₁
        exact (Option.some.inj hk₁).symm
      · cases hbad
    · exact absurd hbelow hnot
  · rintro ⟨hbelow, happart⟩
    obtain ⟨d, hd⟩ := hg.unfolds hbelow
    obtain ⟨bound', hterm⟩ := hd.terminates
    refine ⟨max bound bound', fun fuel hfuel => ?_⟩
    rcases hbound fuel (le_of_max_le_left hfuel) with ⟨-, proof, hproof, hd'⟩ | ⟨hnot, -⟩
    · obtain ⟨v, T, hT⟩ := hterm fuel (le_of_max_le_right hfuel) ∅
      have hv := eq_of_toldApart hnc happart hd' .refl (explained_empty _) hT
      exact Or.inl ⟨proof, hproof, eval_reduceProofTree.2 ⟨T, hv ▸ hT⟩⟩
    · exact absurd hbelow hnot

end

/-! ### On the stores -/

section

variable {σ ι H : Type} [Inhabited ι] [DecidableEq H] [Hashing H]

/-- On the store `S` in the state `w`, with enough fuel, `ComposeProof(path)` returns a proof of the
value that `reduceTree` returns for `e`, or both report an error. -/
def Agree (S : LawfulStore σ ι H) (w : σ) (path : Str) (e : Expr ι H) : Prop :=
  ∃ bound, ∀ fuel ≥ bound,
    (∃ proof : MaterializedProof ι H, ((composeProof fuel path).run S.call w).1 = .ok proof ∧
      ((reduceProofTree fuel e).run S.call w).1 = .ok proof.value) ∨
    ∃ msg msg', ((composeProof fuel path : StoreProg ι H _).run S.call w).1 = .error (.error msg) ∧
      ((reduceProofTree fuel e).run S.call w).1 = .error (.error msg')

/-- In the state `w`, for every path whose current atom is grounded: the evaluators agree exactly if
nothing but constants and composites is below the path, and its constants are told apart. -/
def AgreesIff (S : LawfulStore σ ι H) (w : σ) : Prop :=
  ∀ path a, (S.view w).current path = some a → Grounded (S.view w) a.expr →
    NoCollision (S.view w) a.expr →
      (Agree S w path a.expr ↔ PlainBelow (S.view w) a.expr ∧ ToldApart (S.view w) a.expr)

variable {S : LawfulStore σ ι H} {w : σ}

theorem agree_iff_agreeOn (hw : S.Good w) {path : Str} {e : Expr ι H} :
    Agree S w path e ↔ AgreeOn (S.view w) path e := by
  simp only [Agree, AgreeOn, (run_of_reads (reads_composeProof _ path) hw).1,
    (run_of_reads (reads_reduceProofTree _ e) hw).1]

theorem agreesIff_of_good [Digests H] (hw : S.Good w) : AgreesIff S w := by
  intro path a ha hg hnc
  rw [agree_iff_agreeOn hw]
  exact agreeOn_iff ha hg hnc

end

/-- **The two evaluators**, over the sharded cache and over the crystal. -/
theorem evaluators_agree_iff {H : Type} [DecidableEq H] [Hashing H] [Digests H] :
    (∀ w : World Unit H, w.Reachable → AgreesIff (World.lawful Unit H) w) ∧
      (∀ w : CrystalWorld Unit H, w.Reachable → AgreesIff (CrystalWorld.lawful Unit H) w) :=
  ⟨fun _ hw => agreesIff_of_good hw.inv, fun _ hw => agreesIff_of_good hw.inv⟩

section Instances

abbrev Digest32 := { s : Str // s.length = 32 }

local instance digestHashing : Hashing Digest32 :=
  ⟨fun s => ⟨(s ++ List.replicate 32 0).take 32, by simp⟩, Subtype.val, fun _ => 0⟩

local instance digestDigests : Digests Digest32 := ⟨fun h => h.2, Subtype.val_injective⟩

local instance digestAtomEq : DecidableEq (CausalAtom Unit Digest32) := fun a b =>
  decidable_of_iff (a.hash = b.hash ∧ a.expr = b.expr ∧ a.causalPast = b.causalPast ∧
    a.logicalClock = b.logicalClock ∧ a.physicalTime = b.physicalTime ∧ a.nonce = b.nonce ∧
    a.path = b.path ∧ a.expiresAt = b.expiresAt) (by cases a; cases b; simp)

def fieldOfRecord : Expr Unit Digest32 :=
  .eFieldAccess (str "x") (.eConst (newRecord [(str "x", .vInt 1)]))

def fieldStore : World Unit Digest32 :=
  ((World.init 0 0).append fieldOfRecord (str "p") zeroTime).2

/-- The node of a field access has no children: `ComposeProof` panics where `reduceTree` returns 1. -/
theorem field_access_panics : fieldStore.Reachable ∧
    (∃ a, fieldStore.current (str "p") = some a ∧ a.expr = fieldOfRecord ∧
      Grounded fieldStore.view a.expr) ∧
    ((composeProof 3 (str "p")).run World.call fieldStore).1.map (·.value) = .error .panic ∧
    ((reduceProofTree 3 fieldOfRecord).run World.call fieldStore).1 = .ok (.vInt 1) ∧
    ¬ Agree (World.lawful Unit Digest32) fieldStore (str "p") fieldOfRecord := by
  have hreach : fieldStore.Reachable := (World.reachable_init 0 0).append _ _ _
  have hcur : (fieldStore.current (str "p")).map (·.expr) = some fieldOfRecord := by decide +kernel
  obtain ⟨a, ha, hexpr⟩ := Option.map_eq_some_iff.1 hcur
  have hg : Grounded fieldStore.view a.expr := by
    rw [hexpr]
    exact .fieldAccess _ _ (.const _)
  refine ⟨hreach, ⟨a, ha, hexpr, hg⟩, by decide +kernel, by decide +kernel, fun h => ?_⟩
  rw [agree_iff_agreeOn hreach.inv, ← hexpr] at h
  have hplain := plainBelow_of_agreeOn ha hg h _ .refl
  rw [hexpr] at hplain
  exact hplain

def leafDigest : Digest32 :=
  ((World.init 0 0 : World Unit Digest32).append (.eConst (.vInt 1)) (str "a") zeroTime).1

def composedStore : World Unit Digest32 :=
  (((World.init 0 0).append (.eConst (.vInt 1)) (str "a") zeroTime).2.append (.eCompose [leafDigest])
    (str "P") zeroTime).2

theorem evaluators_agree_iff_composed : composedStore.Reachable ∧
    ∃ a, composedStore.current (str "P") = some a ∧
      Agree (World.lawful Unit Digest32) composedStore (str "P") a.expr := by
  have hreach : composedStore.Reachable := ((World.reachable_init 0 0).append _ _ _).append _ _ _
  have htest : ((composedStore.current (str "P")).map (·.expr) = some (.eCompose [leafDigest])) ∧
      (composedStore.view.atom leafDigest).any (fun a => a.expr = .eConst (.vInt 1) ∧
        composedStore.view.current a.path = some a) ∧
      (Expr.eCompose [leafDigest] : Expr Unit Digest32).exprHash ≠
        (Expr.eConst (.vInt 1) : Expr Unit Digest32).exprHash := by decide +kernel
  obtain ⟨hcur, hatom, hhash⟩ := htest
  obtain ⟨a, ha, hexpr⟩ := Option.map_eq_some_iff.1 hcur
  obtain ⟨leaf, hleaf, hprop⟩ := (Option.any_eq_true _ _).1 hatom
  obtain ⟨hconst, hcurrent⟩ := of_decide_eq_true hprop
  have found : ∀ h ∈ [leafDigest], composedStore.view.atom h = some leaf :=
    fun h hmem => List.mem_singleton.1 hmem ▸ hleaf
  -- there are only the composite and its leaf
  have hleads : ∀ e, LeadsTo composedStore.view a.expr e →
      e = .eCompose [leafDigest] ∨ e = .eConst (.vInt 1) := by
    intro e he
    rw [hexpr, leadsTo_compose found] at he
    rcases he with rfl | ⟨h, -, he⟩
    · exact Or.inl rfl
    · rw [hconst, leadsTo_const] at he
      exact Or.inr he
  refine ⟨hreach, a, ha, ((evaluators_agree_iff.1 composedStore hreach) (str "P") a ha ?_ ?_).2
    ⟨?_, ?_⟩⟩
  · rw [hexpr]
    exact .compose _ (fun _ => leaf) found (fun _ _ => hcurrent) fun _ _ => hconst ▸ .const _
  · intro e₁ e₂ h₁ h₂ heq
    rcases hleads e₁ h₁ with rfl | rfl <;> rcases hleads e₂ h₂ with rfl | rfl
    · rfl
    · exact absurd heq hhash
    · exact absurd heq.symm hhash
    · rfl
  · intro e he
    rcases hleads e he with rfl | rfl <;> trivial
  · intro v₁ v₂ h₁ h₂ _
    rcases hleads _ h₁ with h₁ | h₁ <;> rcases hleads _ h₂ with h₂ | h₂ <;> cases h₁ <;> cases h₂
    rfl

end Instances

end Wavicle.Engine
