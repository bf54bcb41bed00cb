import Wavicle.Engine.Sessions
import Wavicle.Engine.Chains

/-! # Dependencies that have vanished

When a path has no current atom any more, because it has expired or was swept or evicted, its node is marked but
keeps its expression, and its ancestors take its value into their records as before. -/

namespace Wavicle.Engine

open Lib Wavicle.Core Storage World

section

variable {ι H : Type} [Inhabited ι] [DecidableEq H]

/-- In the tree as it is marked for a reduction: the chain of keys meets a node that the reduction
makes a constant, and that constant has no entry for the rest of the chain. The expression is the
current one for a marked node that has a current atom, and the node's own for any other. -/
inductive Hidden (V : View ι H) : ProofNode ι H → List Str → Prop where
  | const (info : NodeInfo ι H) (cs : List (ProofNode ι H)) (k : Str) (ks : List Str) (v : Value ι)
      (expr : (info.refreshed V).expr = .eConst v) (none : entry (k :: ks) v = none) :
      Hidden V (.node info cs) (k :: ks)
  | child (info : NodeInfo ι H) (cs : List (ProofNode ι H)) (k : Str) (ks : List Str) (hs : List H)
      (c : ProofNode ι H) (expr : (info.refreshed V).expr = .eCompose hs)
      (last : lastChild cs k = some c) (h : Hidden V c ks) : Hidden V (.node info cs) (k :: ks)

/-- In the marked tree the chain meets only nodes that the reduction makes composites, and leads to
the node `m`. -/
inductive Visible (V : View ι H) : ProofNode ι H → List Str → ProofNode ι H → Prop where
  | here (n : ProofNode ι H) : Visible V n [] n
  | child (info : NodeInfo ι H) (cs : List (ProofNode ι H)) (k : Str) (ks : List Str) (hs : List H)
      (c m : ProofNode ι H) (expr : (info.refreshed V).expr = .eCompose hs)
      (last : lastChild cs k = some c) (h : Visible V c ks m) : Visible V (.node info cs) (k :: ks) m

variable {V : View ι H}

section

omit [DecidableEq H]

theorem entry_reduced_cons {info : NodeInfo ι H} {cs : List (ProofNode ι H)}
    (hn : Consistent (.node info cs)) (hup : Rose.UpClosed (·.dirty) (.node info cs))
    (hplain : Plain V (.node info cs)) (k : Str) (ks : List Str) :
    entry (k :: ks) (reduced V (.node info cs)).cached =
      match (info.refreshed V).expr with
      | .eConst v => entry (k :: ks) v
      | _ => (lastChild cs k).bind fun c => entry ks (reduced V c).cached := by
  have hrecord : entry (k :: ks) (newRecord ((cs.map (reduced V)).map ProofNode.field)) =
      (lastChild cs k).bind fun c => entry ks (reduced V c).cached := by
    rw [entry_newRecord, lastChild_map (sourcePath_reduced V)]
    cases lastChild cs k <;> rfl
  rw [cached_reduced hn hup hplain]
  cases (info.refreshed V).expr with
  | eConst v => rfl
  | _ => exact hrecord

theorem entry_reduced_eq_none_iff : ∀ (ks : List Str) (n : ProofNode ι H), Consistent n →
    Rose.UpClosed (·.dirty) n → Plain V n → (follow ks n).isSome →
      (entry ks (reduced V n).cached = none ↔ Hidden V n ks)
  | [], n, _, _, _, _ => by
    constructor
    · intro h
      cases h
    · intro h
      cases h
  | k :: ks, .node info cs, hn, hup, hplain, hfollow => by
    obtain ⟨m, hm⟩ := Option.isSome_iff_exists.1 hfollow
    obtain ⟨c, hc, hlast, -, hm⟩ := follow_cons hm
    have ih : entry ks (reduced V c).cached = none ↔ Hidden V c ks := by
      cases hn with
      | node _ _ below _ _ =>
        cases hup with
        | node _ _ upBelow _ =>
          exact entry_reduced_eq_none_iff ks c (below c hc) (upBelow c hc) (hplain.child hc)
            (by rw [hm]; rfl)
    have hlabel := hplain.label
    rw [entry_reduced_cons hn hup hplain]
    cases he : (info.refreshed V).expr with
    | eConst v =>
      constructor
      · exact fun h => .const info cs k ks v he h
      · intro h
        cases h with
        | const _ _ _ _ u hu hnone =>
          rw [he] at hu
          obtain rfl := Expr.eConst.inj hu
          exact hnone
        | child _ _ _ _ hs d hd _ _ =>
          rw [he] at hd
          cases hd
    | eCompose hs =>
      simp only [hlast, Option.bind_some, ih]
      constructor
      · exact fun h => .child info cs k ks hs c he hlast h
      · intro h
        cases h with
        | const _ _ _ _ u hu _ =>
          rw [he] at hu
          cases hu
        | child _ _ _ _ _ d _ hlast' h =>
          rw [hlast] at hlast'
          obtain rfl := Option.some.inj hlast'
          exact h
    | _ => rw [he] at hlabel; exact hlabel.elim

theorem Visible.entry {n m : ProofNode ι H} {ks : List Str} (h : Visible V n ks m)
    (hn : Consistent n) (hup : Rose.UpClosed (·.dirty) n) (hplain : Plain V n) :
    Engine.entry ks (reduced V n).cached = some (reduced V m).cached ∧ Consistent m := by
  induction h with
  | here n => exact ⟨rfl, hn⟩
  | child info cs k ks hs c m expr last h ih =>
    have hc := (mem_of_lastChild last).1
    rw [entry_reduced_cons hn hup hplain, expr, last]
    cases hn with
    | node _ _ below _ _ =>
      cases hup with
      | node _ _ upBelow _ => exact ih (below c hc) (upBelow c hc) (hplain.child hc)

theorem cached_reduced_of_gone {m : ProofNode ι H} (hm : Consistent m) {v : Value ι}
    (hexpr : m.label.expr = .eConst v) (hgone : V.current m.label.sourcePath = none) :
    (reduced V m).cached = v := by
  cases hm with
  | node info cs below plain own =>
    rw [Rose.label_node] at hexpr hgone
    have hself : info.refreshed V = info := by
      unfold NodeInfo.refreshed
      rw [hgone]
      split_ifs <;> rfl
    have hplain : IsPlain (info.refreshed V).expr := by rwa [hself]
    rcases reduced_cases V info cs hplain with ⟨-, -, hr⟩ | ⟨-, u, he, hr⟩ | ⟨-, hs, he, hr⟩
    · rw [hr, ProofNode.cached, Rose.label_node, own, hexpr]
      rfl
    · rw [hself, hexpr] at he
      rw [hr, ← Expr.eConst.inj he]
      rfl
    · rw [hself, hexpr] at he
      cases he

end

end

/-- The next reduction is an error, or returns a value without an entry for `q`. -/
def Session.Omits {σ ι H : Type} [Inhabited ι] [DecidableEq H] (S : LawfulStore σ ι H)
    (s : Session σ ι H) (tree : Rose Str) (q : Str) (fuel : ℕ) : Prop :=
  ∀ r, (s.reduce S fuel).1 = .ok r → ∀ ks, Reaches tree ks q → entry ks r = none

/-- **What becomes of a vanished leaf.** A proof is composed over a sharded cache; then anything is
appended (to the paths of the tree constants and composites, and there is nothing else that this
repository appends), time passes, entries are swept and evicted, the proof is reduced, in any order,
until its leaf `q` has no current atom. The next reduction omits `q` exactly if every chain of keys to
`q` is hidden by a constant, and where a node of `q` stays visible its old constant is served. -/
theorem vanished_leaf_omitted_iff {H : Type} [DecidableEq H] [Hashing H] {w : World Unit H}
    (hw : w.Reachable) {fuel : ℕ} {path : Str} {s₀ s : Session (World Unit H) Unit H}
    (hcompose : Session.compose (lawful Unit H) fuel path w = .ok s₀)
    (hrun : Session.Run (lawful Unit H) (PlainWrite s₀.proof.paths) s₀ s)
    (hd : Distinct (lawful Unit H) s.store) {q : Str} (hgone : s.store.current q = none) (fuel' : ℕ) :
    (s.Omits (lawful Unit H) (s₀.proof.rootNode.map (·.sourcePath)) q fuel' ↔
        ∀ ks, Reaches (s₀.proof.rootNode.map (·.sourcePath)) ks q →
          Hidden s.store.view (s.proof.marked s.store.view) ks) ∧
      ∀ ks m v r, Visible s.store.view (s.proof.marked s.store.view) ks m →
        m.label.sourcePath = q → m.label.expr = .eConst v →
        (s.reduce (lawful Unit H) fuel').1 = .ok r → entry ks r = some v := by
  obtain ⟨hk, hgood, t, ht⟩ := Session.Keeps.of_run hw.inv hcompose hrun hd
  have hreduce := hk.reduce_fst hgood fuel'
  change (s.reduce (lawful Unit H) fuel').1 =
    .ok (reduced s.store.view (s.proof.marked s.store.view)).cached at hreduce
  have hcons : Consistent (s.proof.marked s.store.view) := consistent_marked hk.kept.consistent _ _
  have hup : Rose.UpClosed (·.dirty) (s.proof.marked s.store.view) := upClosed_marked _ _ _
  have hplain : Plain s.store.view (s.proof.marked s.store.view) := hk.plain_marked
  refine ⟨?_, fun ks m v r hvis hmq hmv hr => ?_⟩
  · have htree : PathTree w.view (s₀.proof.rootNode.map (·.sourcePath)) := by
      rw [ht.map_path]
      exact ht.tree.pathTree t
    have hpaths := hk.map_path_marked s.store.view
    have hiff : ∀ ks, Reaches (s₀.proof.rootNode.map (·.sourcePath)) ks q →
        (entry ks (reduced s.store.view (s.proof.marked s.store.view)).cached = none ↔
          Hidden s.store.view (s.proof.marked s.store.view) ks) := by
      intro ks hks
      obtain ⟨m, hm, -⟩ := hks.follow htree _ hpaths
      exact entry_reduced_eq_none_iff ks _ hcons hup hplain (by rw [hm]; rfl)
    unfold Session.Omits
    rw [hreduce]
    constructor
    · exact fun h ks hks => (hiff ks hks).1 (h _ rfl ks hks)
    · intro h r hr ks hks
      obtain rfl := Except.ok.inj hr
      exact (hiff ks hks).2 (h ks hks)
  · rw [hreduce] at hr
    obtain rfl := Except.ok.inj hr
    obtain ⟨hentry, hm⟩ := hvis.entry hcons hup hplain
    rw [hentry, cached_reduced_of_gone hm hmv (hmq ▸ hgone)]

section Instances

local instance rawHashing : Hashing Str := ⟨id, id, fun _ => 0⟩

def perishableLeaf : World Unit Str := ((init 0 0).append (.eConst (.vInt 1)) (str "a") 10).2

def perishable : World Unit Str :=
  (perishableLeaf.append (.eCompose [((init 0 0 : World Unit Str).append (.eConst (.vInt 1))
    (str "a") 10).1]) (str "P") zeroTime).2

theorem perishable_reachable : perishable.Reachable :=
  ((reachable_init 0 0).append _ _ _).append _ _ _

def perishableTree : Rose Str := .node (str "P") [.node (str "a") []]

def expire (s : Session (World Unit Str) Unit Str) : Session (World Unit Str) Unit Str :=
  { s with store := { s.store with now := 20 } }

/-- The leaf has expired: a new composition has no entry for it, and the reduction still serves it. -/
theorem vanished_leaf_served : perishable.Reachable ∧
    ∃ s₀, Session.compose (lawful Unit Str) 3 (str "P") perishable = .ok s₀ ∧
      s₀.proof.rootNode.map (·.sourcePath) = perishableTree ∧ (expire s₀).store.current (str "a") = none ∧
      (Session.compose (lawful Unit Str) 3 (str "P") (expire s₀).store).toOption.map
        (·.proof.value) = some (.vRecord () []) ∧
      ((expire s₀).reduce (lawful Unit Str) 0).1 = .ok (.vRecord () [(str "a", .vInt 1)]) ∧
      ¬ (expire s₀).Omits (lawful Unit Str) perishableTree (str "a") 0 := by
  have htest : (Session.compose (lawful Unit Str) 3 (str "P") perishable).toOption.any (fun s₀ =>
      s₀.proof.rootNode.map (·.sourcePath) = perishableTree ∧
      ((expire s₀).store.current (str "a")).isNone ∧
      (Session.compose (lawful Unit Str) 3 (str "P") (expire s₀).store).toOption.map
        (·.proof.value) = some (.vRecord () []) ∧
      ((expire s₀).reduce (lawful Unit Str) 0).1.toOption =
        some (.vRecord () [(str "a", .vInt 1)])) = true := by decide +kernel
  obtain ⟨s₀, hs₀, htest⟩ := exists_ok_of_any htest
  simp only [decide_eq_true_eq, Option.isNone_iff_eq_none] at htest
  obtain ⟨htree, hgone, hfresh, hserved⟩ := htest
  have hok : ((expire s₀).reduce (lawful Unit Str) 0).1 =
      .ok (.vRecord () [(str "a", .vInt 1)]) := by
    cases hr : ((expire s₀).reduce (lawful Unit Str) 0).1 with
    | error f => rw [hr] at hserved; cases hserved
    | ok r => rw [hr] at hserved; rw [Option.some.inj hserved]
  refine ⟨perishable_reachable, s₀, hs₀, htree, hgone, hfresh, hok, fun h => ?_⟩
  have hreach : Reaches perishableTree [str "a"] (str "a") :=
    .child _ _ (.node (str "a") []) (by simp) _ _ (.here _ _)
  have hnone := h _ hok _ hreach
  have hsome : entry [str "a"] (.vRecord () [(str "a", .vInt 1)] : Value Unit) = some (.vInt 1) := by
    decide
  rw [hsome] at hnone
  cases hnone

def expireUnder (s : Session (World Unit Str) Unit Str) : Session (World Unit Str) Unit Str :=
  { expire s with store := ((expire s).store.append (.eConst (.vInt 5)) (str "P") zeroTime).2 }

theorem vanished_leaf_omitted_iff_overwritten :
    ∃ s₀, Session.compose (lawful Unit Str) 3 (str "P") perishable = .ok s₀ ∧
      (expireUnder s₀).store.current (str "a") = none ∧
      (expireUnder s₀).Omits (lawful Unit Str) perishableTree (str "a") 0 := by
  have htest : (Session.compose (lawful Unit Str) 3 (str "P") perishable).toOption.any (fun s₀ =>
      s₀.proof.rootNode.map (·.sourcePath) = perishableTree ∧
      (s₀.store.now = 0 ∧ ((expireUnder s₀).store.log.map (·.hash)).Nodup) ∧
      ((expireUnder s₀).store.current (str "a")).isNone ∧
      ((((expireUnder s₀).proof.marked (expireUnder s₀).store.view).label.refreshed
        (expireUnder s₀).store.view).expr.constValue = some (.vInt 5))) = true := by decide +kernel
  obtain ⟨s₀, hs₀, htest⟩ := exists_ok_of_any htest
  simp only [decide_eq_true_eq, Option.isNone_iff_eq_none, Expr.constValue_eq_some] at htest
  obtain ⟨htree, ⟨hnow, hnd⟩, hgone, hexpr⟩ := htest
  have hrun : Session.Run (lawful Unit Str) (PlainWrite s₀.proof.paths) s₀
      (expireUnder s₀) :=
    .tail (.single (.idle _ (.tick 20 (by rw [hnow]; decide))))
      (.append .given (.eConst (.vInt 5)) (str "P") [] zeroTime fun _ => trivial)
  have h := (vanished_leaf_omitted_iff perishable_reachable hs₀ hrun hnd hgone 0).1
  rw [htree] at h
  refine ⟨s₀, hs₀, hgone, h.2 fun ks hks => ?_⟩
  cases hm : (expireUnder s₀).proof.marked (expireUnder s₀).store.view with
  | node info cs =>
    rw [hm, Rose.label_node] at hexpr
    -- a chain to `a` has a first key, and the constant has no entries
    cases hks with
    | child _ _ c hc ks _ _ => exact .const info cs _ ks _ hexpr rfl

end Instances

end Wavicle.Engine
