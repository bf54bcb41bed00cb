import Wavicle.Engine.Sessions
import Wavicle.Engine.Denotation

/-! # Warm and cold reads

A cached proof follows the paths its tree was composed with; a new composition follows the hashes in the
composite, and finds only those that are still current. -/

namespace Wavicle.Engine

open Lib Wavicle.Core Storage World

section

variable {ι H : Type} [Inhabited ι] [DecidableEq H]

/-- The hashes stand for the paths under which the store can resolve them. -/
def Resolved (V : View ι H) (hs : List H) (ps : List Str) : Prop := ps = hs.filterMap (childPath V)

variable {V : View ι H} {a : CausalAtom ι H}

omit [Inhabited ι] [DecidableEq H] in
theorem Resolved.unique (hs : List H) (ps ps' : List Str) (h : Resolved V hs ps)
    (h' : Resolved V hs ps') : ps = ps' := Eq.trans h (Eq.symm h')

omit [DecidableEq H] in
theorem denotes_eCompose {lists : List H → List Str → Prop} {hs : List H}
    {cs : List (ProofNode ι H)} (a₀ : CausalAtom ι H) (hlisted : lists hs (cs.map (·.label.sourcePath)))
    (h : ∀ c ∈ cs, ∃ a, V.current c.label.sourcePath = some a ∧ Denotes V lists a.expr c.cached) :
    Denotes V lists (.eCompose hs) (newRecord (cs.map ProofNode.field)) := by
  -- the entry of a path is that of its last child
  let value : Str → Value ι := fun p => ((lastChild cs p).map ProofNode.cached).getD .vNull
  have hvalue : ∀ p c, lastChild cs p = some c → value p = c.cached := by
    intro p c hc
    simp only [value, hc, Option.map_some, Option.getD_some]
  have hchild : ∀ p ∈ cs.map (·.label.sourcePath), ∃ a, V.current p = some a ∧
      Denotes V lists a.expr (value p) := by
    intro p hp
    cases hc : lastChild cs p with
    | none => exact (lastChild_eq_none.1 hc hp).elim
    | some c =>
      obtain ⟨hmem, rfl⟩ := mem_of_lastChild hc
      rw [hvalue _ c hc]
      exact h c hmem
  have hrecord := (newRecord_field_eq_iff cs (cs.map (·.label.sourcePath)) value).2
    ⟨fun _ => Iff.rfl, fun k c hc => (hvalue k c hc).symm⟩
  have : Nonempty (CausalAtom ι H) := ⟨a₀⟩
  choose! atom hatom hdenotes using hchild
  rw [hrecord]
  exact .compose hs _ atom value hlisted hatom hdenotes

omit [DecidableEq H] in
theorem FromView.denotes (n : ProofNode ι H) (hn : FromView V n) (h : Plain V n) :
    ∃ a, V.current n.label.sourcePath = some a ∧ Denotes V (Resolved V) a.expr (reduced V n).cached := by
  induction n using Rose.induct with
  | node info cs ih =>
    cases hn with
    | node _ _ atom current expr hash fresh clean paths below =>
      refine ⟨atom, current, ?_⟩
      have hclean := refreshed_of_clean V clean
      rcases reduced_cases V info cs h.label with ⟨-, ⟨v, hv⟩, -⟩ | ⟨-, v, he, hr⟩ | ⟨-, hs, he, hr⟩
      · rw [fresh] at hv
        cases hv
      · rw [hclean, expr] at he
        rw [hr, he]
        exact .const v
      · rw [hclean, expr] at he
        rw [he] at paths
        rw [hr, he]
        have hfields : (cs.map fun c => (reduced V c).field) =
            (cs.map (reduced V)).map ProofNode.field := by rw [List.map_map]; rfl
        rw [hfields]
        refine denotes_eCompose atom ?_ fun c hc => ?_
        · rw [Resolved, ← show _ = hs.filterMap (childPath V) from paths, List.map_map]
          exact List.map_congr_left fun c _ => sourcePath_reduced V c
        · obtain ⟨d, hd, rfl⟩ := List.mem_map.1 hc
          rw [sourcePath_reduced]
          exact ih d hd (below d hd) (h.child hd)

/-! ### A new composition -/

/-- Each of the hashes was given out for a path that has a constant now, and is not empty. -/
def OverLeaves (V : View ι H) (log : List (CausalAtom ι H)) (hs : List H) : Prop :=
  ∀ h ∈ hs, ∃ a ∈ log, a.hash = h ∧ a.path ≠ [] ∧
    ∃ b v, V.current a.path = some b ∧ b.expr = .eConst v

omit [Inhabited ι] in
theorem eval_buildProofNode_eConst {p : Str} {v : Value ι} (ha : V.current p = some a)
    (he : a.expr = .eConst v) (fuel : ℕ) (b : Builder) :
    ∃ t b', (buildProofNode (fuel + 1) p b).eval V.answer = (.ok (some t), b') := by
  rw [buildProofNode]
  simp only [Prog.eval_bind, Prog.eval_ask, View.answer_getCurrent, ha, he]
  exact ⟨_, _, rfl⟩

theorem eval_composeProof_ok {fuel : ℕ} {path : Str} {t : ProofNode ι H} {b : Builder}
    (hbuild : (buildProofNode fuel path ⟨0, ∅⟩).eval V.answer = (.ok (some t), b))
    (hplain : Plain V t) : ∃ proof, (composeProof fuel path).eval V.answer = .ok proof := by
  have hspec := buildProofNode_spec V fuel path _ _ _ hbuild
  obtain ⟨a, ha⟩ : ∃ a, V.current path = some a := by
    obtain ⟨htree, hpath, -⟩ := hspec
    cases htree with
    | node info cs atom current => exact ⟨atom, hpath ▸ current⟩
  obtain ⟨stats, hred, -⟩ := computes_of_plain fuel V t hplain ⟨0, 0, 0⟩
  unfold composeProof
  simp only [Prog.eval_bind, Prog.eval_ask, View.answer_getCurrent, ha, hbuild, hred]
  exact ⟨_, rfl⟩

omit [Inhabited ι] [DecidableEq H] in
theorem FromView.plain_of_eConst {n : ProofNode ι H} (hn : FromView V n) {v : Value ι}
    (ha : V.current n.label.sourcePath = some a) (he : a.expr = .eConst v) : Plain V n := by
  cases hn with
  | node info cs atom current expr hash fresh clean paths below =>
    rw [Rose.label_node, current] at ha
    obtain rfl := Option.some.inj ha
    rw [he] at paths
    obtain rfl := List.map_eq_nil_iff.1 paths
    intro i hi
    rw [Rose.labels_node] at hi
    obtain rfl := List.mem_singleton.1 hi
    rw [refreshed_of_clean V clean, expr, he]
    trivial

omit [Inhabited ι] [DecidableEq H] in
theorem FromView.plain_of_eCompose {n : ProofNode ι H} (hn : FromView V n) {hs : List H}
    (ha : V.current n.label.sourcePath = some a) (he : a.expr = .eCompose hs)
    (hleaf : ∀ h ∈ hs, ∀ c, V.atom h = some c → ∃ b v, V.current c.path = some b ∧ b.expr = .eConst v) :
    Plain V n := by
  cases hn with
  | node info cs atom current expr hash fresh clean paths below =>
    rw [Rose.label_node, current] at ha
    obtain rfl := Option.some.inj ha
    rw [he] at paths
    intro i hi
    rw [Rose.labels_node] at hi
    rcases List.mem_cons.1 hi with rfl | hi
    · rw [refreshed_of_clean V clean, expr, he]
      trivial
    · obtain ⟨c, hc, hi⟩ := List.mem_flatMap.1 hi
      have hpath : c.label.sourcePath ∈ hs.filterMap (childPath V) := by
        rw [← show _ = hs.filterMap (childPath V) from paths]
        exact List.mem_map.2 ⟨c, hc, rfl⟩
      obtain ⟨h, hh, hchild⟩ := List.mem_filterMap.1 hpath
      obtain ⟨d, hd, hsome⟩ := Option.bind_eq_some_iff.1 hchild
      obtain ⟨b, v, hb, hv⟩ := hleaf h hh d hd
      obtain ⟨_, -, heq⟩ := Option.map_eq_some_iff.1 hsome
      exact (below c hc).plain_of_eConst (heq ▸ hb) hv i hi

theorem eval_composeProof_of_leaves {path : Str} {hs : List H} (ha : V.current path = some a)
    (he : a.expr = .eCompose hs)
    (hleaf : ∀ h ∈ hs, ∀ c, V.atom h = some c → ∃ b v, V.current c.path = some b ∧ b.expr = .eConst v)
    (fuel : ℕ) : ∃ proof, (composeProof (fuel + 2) path).eval V.answer = .ok proof := by
  obtain ⟨t, b, ht⟩ : ∃ t b, (buildProofNode (fuel + 2) path ⟨0, ∅⟩).eval V.answer =
      (.ok (some t), b) := by
    obtain ⟨cs, b, hcs⟩ := eval_buildChildren_ok (buildProofNode (fuel + 1)) hs
      (fun h hh c hc b => by
        obtain ⟨d, v, hd, hv⟩ := hleaf h hh c hc
        exact eval_buildProofNode_eConst hd hv fuel b) ⟨1, (∅ : GoMap Str ℕ).insert path 0⟩
    rw [buildProofNode]
    simp only [Prog.eval_bind, Prog.eval_ask, View.answer_getCurrent, ha, he, Nat.zero_add, hcs]
    exact ⟨_, _, rfl⟩
  obtain ⟨htree, hpath, -⟩ := buildProofNode_spec V _ path _ _ _ ht
  exact eval_composeProof_ok ht (htree.plain_of_eCompose (hpath ▸ ha) he hleaf)

/-! ### Warm against cold -/

variable [Hashing H]

/-- From the world `w₀` on: a proof of `path` is composed, then there are appends (at the paths of the
tree of constants and composites), reductions and whatever else, in any order. If `path` then holds a
composite over leaves, a new composition succeeds, and the reduction of the old proof has the same
value exactly if its tree agrees with the hashes that the store can resolve. -/
def WarmEqualsColdIff (w₀ : World ι H) : Prop :=
  ∀ (fuel : ℕ) (path : Str) (s₀ : Session (World ι H) ι H),
      Session.compose (lawful ι H) fuel path w₀ = .ok s₀ →
    ∀ s, Session.Run (lawful ι H) (PlainWrite s₀.proof.paths) s₀ s →
      Distinct (lawful ι H) s.store →
    ∀ a hs, s.store.current path = some a → a.expr = .eCompose hs →
      OverLeaves s.store.view s.store.log hs →
    ∀ fuel', ∃ r, Session.compose (lawful ι H) (fuel' + 2) path s.store = .ok r ∧
      ((s.reduce (lawful ι H) fuel').1 = .ok r.proof.value ↔
        Agrees s.store.view (Resolved s.store.view) (s.proof.marked s.store.view))

theorem warmEqualsColdIff_of_inv {w₀ : World ι H} (hw₀ : w₀.Inv) : WarmEqualsColdIff w₀ := by
  intro fuel path s₀ hcompose s hrun hd a hs ha he hover fuel'
  obtain ⟨hk, hgood, t, ht⟩ := Session.Keeps.of_run hw₀ hcompose hrun hd
  -- a hash that the store resolves is that of a leaf
  have hleaf : ∀ h ∈ hs, ∀ c, s.store.view.atom h = some c → ∃ b v,
      s.store.view.current c.path = some b ∧ b.expr = .eConst v := by
    intro h hh c hc
    obtain ⟨hcur, hhash⟩ := (World.Inv.atom_eq_some hgood hd).1 hc
    obtain ⟨d, hdlog, hdhash, -, hb⟩ := hover h hh
    obtain rfl := eq_of_hash_eq hd (World.Inv.logged hgood hcur) hdlog
      (hhash.trans hdhash.symm)
    exact hb
  obtain ⟨proof, hproof⟩ := eval_composeProof_of_leaves ha he hleaf fuel'
  obtain ⟨t', ht'⟩ := composeProof_spec (World.Inv.pathsAgree hgood) hproof
  obtain ⟨r, hr, rfl⟩ := Session.compose_of_eval (S := lawful ι H) hgood hproof
  refine ⟨r, hr, ?_⟩
  obtain ⟨b, hb, hden⟩ := ht'.tree.denotes t' ht'.plain
  rw [ht'.path_eq] at hb
  obtain rfl : a = b := Option.some.inj (ha.symm.trans hb)
  rw [hk.reduce_fst hgood fuel', Except.ok.injEq, ht'.value]
  exact cached_reduced_eq_iff Resolved.unique _ (consistent_marked hk.kept.consistent _ _)
    (upClosed_marked _ _ _) hk.plain_marked (hk.sourcePath_marked ht _ ▸ ha) hden

end

/-- **When a cached proof and a new one agree.** -/
theorem warm_eq_cold_iff {H : Type} [DecidableEq H] [Hashing H] (w : World Unit H)
    (hw : w.Reachable) : WarmEqualsColdIff w :=
  warmEqualsColdIff_of_inv hw.inv

section Instances

local instance openHashing : Hashing Str := ⟨id, id, fun _ => 0⟩

def leafHash : Str :=
  ((init 0 0 : World Unit Str).append (.eConst (.vInt 1)) (str "a") zeroTime).1

def leafWorld : World Unit Str :=
  (((init 0 0).append (.eConst (.vInt 1)) (str "a") zeroTime).2.append
    (.eCompose [leafHash]) (str "P") zeroTime).2

theorem leafWorld_reachable : leafWorld.Reachable :=
  ((reachable_init 0 0).append _ _ _).append _ _ _

def rewriteA (v : Int64) (s : Session (World Unit Str) Unit Str) : Session (World Unit Str) Unit Str :=
  s.append (lawful Unit Str) (.eConst (.vInt v)) (str "a") [] zeroTime

/-- The leaf is overwritten: the cached proof has its new value, a new proof has no leaf at all. -/
theorem overwritten_leaf_warm_ne_cold : leafWorld.Reachable ∧
    ∃ s₀ r, Session.compose (lawful Unit Str) 2 (str "P") leafWorld = .ok s₀ ∧
      (∃ a, (rewriteA 9 s₀).store.current (str "P") = some a ∧ a.expr = .eCompose [leafHash]) ∧
      OverLeaves (rewriteA 9 s₀).store.view (rewriteA 9 s₀).store.log [leafHash] ∧
      Session.compose (lawful Unit Str) 2 (str "P") (rewriteA 9 s₀).store = .ok r ∧
      r.proof.value = newRecord [] ∧
      ((rewriteA 9 s₀).reduce (lawful Unit Str) 0).1 = .ok (newRecord [(str "a", .vInt 9)]) := by
  have htest : (Session.compose (lawful Unit Str) 2 (str "P") leafWorld).toOption.any
      (fun s₀ =>
        ((rewriteA 9 s₀).store.current (str "P")).map (·.expr) = some (.eCompose [leafHash]) ∧
        ((rewriteA 9 s₀).store.current (str "a")).map (·.expr) = some (.eConst (.vInt 9)) ∧
        ((rewriteA 9 s₀).store.log.map fun a => (a.hash, a.path)).contains (leafHash, str "a") ∧
        ((rewriteA 9 s₀).reduce (lawful Unit Str) 0).1.toOption =
          some (newRecord [(str "a", .vInt 9)]) ∧
        ((Session.compose (lawful Unit Str) 2 (str "P") (rewriteA 9 s₀).store).toOption.any
          fun r => r.proof.value = newRecord []) = true) = true := by decide +kernel
  obtain ⟨s₀, hs₀, htest⟩ := exists_ok_of_any htest
  simp only [decide_eq_true_eq, List.contains_iff_mem, List.mem_map] at htest
  obtain ⟨hP, ha, ⟨a, halog, hahash⟩, hred, hcold⟩ := htest
  obtain ⟨r, hr, hvalue⟩ := exists_ok_of_any hcold
  obtain ⟨b, hb, heb⟩ := Option.map_eq_some_iff.1 ha
  obtain ⟨hhash, hpath⟩ := Prod.mk.inj hahash
  refine ⟨leafWorld_reachable, s₀, r, hs₀, Option.map_eq_some_iff.1 hP, fun h hh => ?_, hr,
    by simpa using hvalue, ?_⟩
  · obtain rfl := List.mem_singleton.1 hh
    exact ⟨a, halog, hhash, by rw [hpath]; decide, b, .vInt 9, hpath ▸ hb, heb⟩
  · cases hres : ((rewriteA 9 s₀).reduce (lawful Unit Str) 0).1 with
    | error f => rw [hres] at hred; cases hred
    | ok v => rw [hres] at hred; exact congrArg _ (Option.some.inj hred)

theorem warm_eq_cold_iff_untouched :
    ∃ s₀, Session.compose (lawful Unit Str) 2 (str "P") leafWorld = .ok s₀ ∧
      Agrees s₀.store.view (Resolved s₀.store.view) (s₀.proof.marked s₀.store.view) := by
  have htest : (Session.compose (lawful Unit Str) 2 (str "P") leafWorld).toOption.any
      (fun s₀ =>
        (s₀.store.current (str "P")).map (·.expr) = some (.eCompose [leafHash]) ∧
        (s₀.store.current (str "a")).map (·.expr) = some (.eConst (.vInt 1)) ∧
        (s₀.store.log.map fun a => (a.hash, a.path)).contains (leafHash, str "a") ∧
        (s₀.store.log.map (·.hash)).Nodup ∧
        (s₀.reduce (lawful Unit Str) 0).1.toOption = some (newRecord [(str "a", .vInt 1)]) ∧
        ((Session.compose (lawful Unit Str) 2 (str "P") s₀.store).toOption.map
          (·.proof.value)) = some (newRecord [(str "a", .vInt 1)])) = true := by decide +kernel
  obtain ⟨s₀, hs₀, htest⟩ := exists_ok_of_any htest
  simp only [decide_eq_true_eq, List.contains_iff_mem, List.mem_map] at htest
  obtain ⟨hP, ha, ⟨a, halog, hahash⟩, hnd, hred, hcold⟩ := htest
  obtain ⟨atomP, hP, heP⟩ := Option.map_eq_some_iff.1 hP
  obtain ⟨b, hb, heb⟩ := Option.map_eq_some_iff.1 ha
  obtain ⟨hhash, hpath⟩ := Prod.mk.inj hahash
  have hover : OverLeaves s₀.store.view s₀.store.log [leafHash] := by
    intro h hh
    obtain rfl := List.mem_singleton.1 hh
    exact ⟨a, halog, hhash, by rw [hpath]; decide, b, .vInt 1, hpath ▸ hb, heb⟩
  obtain ⟨r, hr, hiff⟩ := warm_eq_cold_iff leafWorld leafWorld_reachable 2 (str "P") s₀ hs₀ s₀ .refl
    hnd atomP [leafHash] hP heP hover 0
  refine ⟨s₀, hs₀, hiff.1 ?_⟩
  rw [hr] at hcold
  cases hres : (s₀.reduce (lawful Unit Str) 0).1 with
  | error f => rw [hres] at hred; cases hred
  | ok v =>
    rw [hres] at hred
    exact congrArg _ ((Option.some.inj hred).trans (Option.some.inj hcold).symm)

end Instances

end Wavicle.Engine
