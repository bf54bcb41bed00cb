import Wavicle.Engine.LeafRuns
import Wavicle.Engine.Chains
import Wavicle.Storage.CrystalSpec

/-! # Leaves that several composites share

A leaf that is reached through several composites has a node below each of them, but the path index
leads to one of these nodes only. The others keep the value of the leaf at the time of composition. -/

namespace Wavicle.Engine

open Lib Wavicle.Core Storage

section

variable {ι H : Type} [Inhabited ι] [DecidableEq H]

omit [DecidableEq H] in
theorem Grown.entry_follow {V₀ : View ι H} {Q : ℕ → Str → Expr ι H → Prop} :
    ∀ (ks : List Str) (n m : ProofNode ι H), Grown V₀ Q n → Consistent n → follow ks n = some m →
      Grown V₀ Q m ∧ Consistent m ∧ entry ks n.cached = some m.cached
  | [], n, m, hn, hc, h => by
    obtain rfl := Option.some.inj h
    exact ⟨hn, hc, rfl⟩
  | k :: ks, .node info cs, m, hn, hc, h => by
    obtain ⟨c, hcmem, hlast, -, hm⟩ := follow_cons h
    have hentry := hc.entry_cons k ks
    cases hn with
    | leaf _ was now => cases hcmem
    | inner _ _ a hs was compose now below =>
      cases hc with
      | node _ _ below' plain own =>
        obtain ⟨hm₁, hm₂, hm₃⟩ := entry_follow ks c m (below c hcmem) (below' c hcmem) hm
        refine ⟨hm₁, hm₂, ?_⟩
        rw [now, compose] at hentry
        rw [hentry, hlast]
        exact hm₃

end

section

variable {σ ι H : Type} [Inhabited ι] [DecidableEq H] {S : LawfulStore σ ι H} {w₀ : σ}
  {s s₀ : Session σ ι H}

/-- A reduction returns a value in which every occurrence of `q` is `v`. -/
def Session.CarriesEverywhere (S : LawfulStore σ ι H) (s : Session σ ι H) (tree : Rose Str) (q : Str)
    (v : Value ι) (fuel : ℕ) : Prop :=
  ∃ r, (s.reduce S fuel).1 = .ok r ∧ ∀ ks, Reaches tree ks q → entry ks r = some v

variable {q : Str} {t : ProofNode ι H}

theorem LeafSession.entry_reduced {path : Str} (ht : Composed (S.view w₀) path t s₀.proof)
    (hs : LeafSession S w₀ s₀.proof s) (hgood : S.Good s.store) {ks : List Str}
    (hleaf : (constAt (S.view w₀) q).isSome)
    (hreach : Reaches (s₀.proof.rootNode.map (·.sourcePath)) ks q) :
    ∃ m v, follow ks (reduced (S.view s.store) (s.proof.marked (S.view s.store))) = some m ∧
      entry ks (reduced (S.view s.store) (s.proof.marked (S.view s.store))).cached = some v ∧
      Held (S.view w₀) (S.log s.store) s.proof.pathToNode
        (updated (S.view s.store) s.proof.versionVector (s.proof.changed (S.view s.store)))
        m.label.addr q (.eConst v) := by
  have hshape := (map_key_after _ hs.keeps.plain_marked).trans hs.keeps.shape
  have htree : PathTree (S.view w₀) (s₀.proof.rootNode.map (·.sourcePath)) := by
    rw [ht.map_path]
    exact ht.tree.pathTree t
  obtain ⟨m, hm, hq⟩ := hreach.follow htree _ (map_path_eq_of_map_key hshape)
  obtain ⟨hgrown, hcons, hentry⟩ := Grown.entry_follow ks _ m (hs.grown_after hgood ⟨0, 0, 0⟩)
    (hs.keeps.kept.after hs.keeps.plain_marked ⟨0, 0, 0⟩).consistent hm
  cases hgrown with
  | inner info cs a hs was compose now below =>
    -- a composite was no constant
    rw [Rose.label_node] at hq
    rw [← hq, constAt_of_compose was compose] at hleaf
    cases hleaf
  | leaf info was now =>
    rw [Rose.label_node] at hq
    subst hq
    obtain ⟨v, hv⟩ := now.const
    rw [hcons.cached, hv, ownValue_eConst] at hentry
    exact ⟨_, v, hm, hentry, hv ▸ now⟩

theorem LeafSession.tracked_value (hs : LeafSession S w₀ s₀.proof s) (hgood : S.Good s.store)
    (hd : Distinct S s.store) {addr : ℕ} (hq : q ∈ s₀.proof.paths) (hne : q ≠ []) {u v : Value ι}
    (hcur : constAt (S.view s.store) q = some v)
    (h : Held (S.view w₀) (S.log s.store) s.proof.pathToNode
      (updated (S.view s.store) s.proof.versionVector (s.proof.changed (S.view s.store))) addr q (.eConst u))
    (hidx : s.proof.pathToNode.lookup q = some addr) : u = v := by
  obtain ⟨b, hb, he⟩ := constAt_eq_some.1 hcur
  obtain ⟨a, ha, hvv, hu⟩ := h.tracked hne hidx
  have hrec := hs.recorded_after (S.view s.store) ⟨0, 0, 0⟩ hq hne
    (show (S.view s.store).currentHash q = some b.hash by rw [View.currentHash, hb]; rfl)
  change (updated _ _ _).lookup q = _ at hrec
  rw [hvv] at hrec
  have hab := List.inj_on_of_nodup_map hd ha (S.logged _ hgood _ _ hb) (Option.some.inj hrec)
  rw [hab, he] at hu
  exact Expr.eConst.inj hu

theorem mem_paths_of_reaches {r : Rose Str} {ks : List Str} (h : Reaches r ks q) : q ∈ r.labels := by
  induction h with
  | here p cs => rw [Rose.labels_node]; exact List.mem_cons_self
  | child p cs c hc ks q _ ih =>
    rw [Rose.labels_node]
    exact List.mem_cons_of_mem _ (List.mem_flatMap.2 ⟨c, hc, ih⟩)

omit [Inhabited ι] [DecidableEq H] in
theorem Held.untracked_value {V₀ : View ι H} {log : List (CausalAtom ι H)}
    {pathToNode : GoMap Str ℕ} {vv : VersionVector H} {addr : ℕ} {u v₀ : Value ι}
    (h : Held V₀ log pathToNode vv addr q (.eConst u)) (hv₀ : constAt V₀ q = some v₀)
    (hun : q = [] ∨ pathToNode.lookup q ≠ some addr) : u = v₀ := by
  obtain ⟨a, ha, hu⟩ := h.untracked hun
  obtain ⟨a₀, ha₀, he₀⟩ := constAt_eq_some.1 hv₀
  rw [ha] at ha₀
  obtain rfl := Option.some.inj ha₀
  rw [he₀] at hu
  exact Expr.eConst.inj hu

theorem LeafSession.eq_of_carries {path : Str} (ht : Composed (S.view w₀) path t s₀.proof)
    (hs : LeafSession S w₀ s₀.proof s) (hgood : S.Good s.store) {v v₀ : Value ι}
    (hv₀ : constAt (S.view w₀) q = some v₀) {ks ks' : List Str} (hne : ks ≠ ks')
    (hks : Reaches (s₀.proof.rootNode.map (·.sourcePath)) ks q)
    (hks' : Reaches (s₀.proof.rootNode.map (·.sourcePath)) ks' q) {fuel : ℕ}
    (h : s.CarriesEverywhere S (s₀.proof.rootNode.map (·.sourcePath)) q v fuel) : v = v₀ := by
  obtain ⟨r, hr, hall⟩ := h
  rw [hs.keeps.reduce_fst hgood] at hr
  obtain rfl := Except.ok.inj hr
  have hleaf : (constAt (S.view w₀) q).isSome := by rw [hv₀]; rfl
  obtain ⟨m, u, hm, hu, hheld⟩ := hs.entry_reduced ht hgood hleaf hks
  obtain ⟨m', u', hm', hu', hheld'⟩ := hs.entry_reduced ht hgood hleaf hks'
  rw [hall ks hks] at hu
  rw [hall ks' hks'] at hu'
  obtain rfl := Option.some.inj hu
  obtain rfl := Option.some.inj hu'
  -- the two nodes are different, so the index does not lead to both
  have haddr := addr_follow_ne ks ks' _ m m'
    (hs.keeps.kept.after hs.keeps.plain_marked ⟨0, 0, 0⟩).addr_nodup hm hm' hne
  by_cases hidx : s.proof.pathToNode.lookup q = some m.label.addr
  · refine hheld'.untracked_value hv₀ (Or.inr fun hidx' => haddr ?_)
    rw [hidx] at hidx'
    exact Option.some.inj hidx'
  · exact hheld.untracked_value hv₀ (Or.inr hidx)

theorem LeafSession.carries_of_eq {path : Str} (ht : Composed (S.view w₀) path t s₀.proof)
    (hs : LeafSession S w₀ s₀.proof s) (hgood : S.Good s.store) (hd : Distinct S s.store)
    {v₀ : Value ι} (hv₀ : constAt (S.view w₀) q = some v₀)
    (hcur : constAt (S.view s.store) q = some v₀) (fuel : ℕ) :
    s.CarriesEverywhere S (s₀.proof.rootNode.map (·.sourcePath)) q v₀ fuel := by
  refine ⟨_, hs.keeps.reduce_fst hgood fuel, fun ks hks => ?_⟩
  have hq : q ∈ s₀.proof.paths := by
    have hmem := mem_paths_of_reaches hks
    rwa [Rose.labels_map] at hmem
  obtain ⟨m, u, -, hu, hheld⟩ := hs.entry_reduced ht hgood (by rw [hv₀]; rfl) hks
  rw [hu]
  by_cases htracked : q ≠ [] ∧ s.proof.pathToNode.lookup q = some m.label.addr
  · rw [hs.tracked_value hgood hd hq htracked.1 hcur hheld htracked.2]
  · rw [hheld.untracked_value hv₀ ((not_and_or.1 htracked).imp_left not_not.1)]

/-- Over the store `S`, from the state `w₀` on: a proof is composed in whose tree two chains of
composites lead to the constant `q`, then leaves are written and the proof is reduced in any order,
and then `v` is written to `q`. If the store has taken the write, the next reduction shows `v` in
every occurrence of `q` exactly if `v` is the value that `q` had at the composition; if it has not,
at most then. -/
def RefreshesSharedLeafIff (S : LawfulStore σ ι H) (w₀ : σ) : Prop :=
  ∀ (fuel : ℕ) (path : Str) (s₀ : Session σ ι H), Session.compose S fuel path w₀ = .ok s₀ →
    ∀ (q : Str) (v₀ : Value ι), constAt (S.view w₀) q = some v₀ →
    ∀ ks ks' : List Str, ks ≠ ks' → Reaches (s₀.proof.rootNode.map (·.sourcePath)) ks q →
      Reaches (s₀.proof.rootNode.map (·.sourcePath)) ks' q →
    ∀ s, Session.Run S (LeafWrite (S.view w₀) s₀.proof.paths) s₀ s →
    ∀ (v : Value ι) (parents : List H) (deadline : Time) (fuel' : ℕ),
      Distinct S (s.append S (.eConst v) q parents deadline).store →
      (constAt (S.view (s.append S (.eConst v) q parents deadline).store) q = some v →
        ((s.append S (.eConst v) q parents deadline).CarriesEverywhere S
          (s₀.proof.rootNode.map (·.sourcePath)) q v fuel' ↔ v = v₀)) ∧
      ((s.append S (.eConst v) q parents deadline).CarriesEverywhere S
        (s₀.proof.rootNode.map (·.sourcePath)) q v fuel' → v = v₀)

theorem refreshesSharedLeafIff_of_good (hw₀ : S.Good w₀) : RefreshesSharedLeafIff S w₀ := by
  intro fuel path s₀ hcompose q v₀ hv₀ ks ks' hne hks hks' s hrun v parents deadline fuel' hd
  have hrun' : Session.Run S (LeafWrite (S.view w₀) s₀.proof.paths) s₀
      (s.append S (.eConst v) q parents deadline) :=
    hrun.tail (.append .given (.eConst v) q parents deadline fun _ => ⟨by rw [hv₀]; rfl, v, rfl⟩)
  obtain ⟨hs, hgood, t, ht⟩ := LeafSession.of_run hw₀ hcompose hrun' hd
  refine ⟨fun heff => ⟨hs.eq_of_carries ht hgood hv₀ hne hks hks', ?_⟩,
    hs.eq_of_carries ht hgood hv₀ hne hks hks'⟩
  rintro rfl
  exact hs.carries_of_eq ht hgood hd hv₀ heff fuel'

end

/-- **When a shared leaf is refreshed everywhere**, over the sharded cache and over the crystal. -/
theorem shared_leaf_refreshed_iff {H : Type} [DecidableEq H] [Hashing H] :
    (∀ w : World Unit H, w.Reachable → RefreshesSharedLeafIff (World.lawful Unit H) w) ∧
      (∀ w : CrystalWorld Unit H, w.Reachable → RefreshesSharedLeafIff (CrystalWorld.lawful Unit H) w) :=
  ⟨fun _ hw => refreshesSharedLeafIff_of_good hw.inv,
    fun _ hw => refreshesSharedLeafIff_of_good hw.inv⟩

section Instances

local instance idHashing : Hashing Str := ⟨id, id, fun _ => 0⟩

def sharedLeaf : World Unit Str := ((World.init 0 0).append (.eConst (.vInt 1)) (str "a") zeroTime).2

def sharedHash : Str :=
  ((World.init 0 0 : World Unit Str).append (.eConst (.vInt 1)) (str "a") zeroTime).1

def sharedOnce : World Unit Str := (sharedLeaf.append (.eCompose [sharedHash]) (str "x") zeroTime).2

def sharedTwice : World Unit Str := (sharedOnce.append (.eCompose [sharedHash]) (str "y") zeroTime).2

def diamond : World Unit Str :=
  (sharedTwice.append (.eCompose [(sharedLeaf.append (.eCompose [sharedHash]) (str "x") zeroTime).1,
    (sharedOnce.append (.eCompose [sharedHash]) (str "y") zeroTime).1]) (str "P") zeroTime).2

theorem diamond_reachable : diamond.Reachable :=
  ((((World.reachable_init 0 0).append _ _ _).append _ _ _).append _ _ _).append _ _ _

def diamondTree : Rose Str :=
  .node (str "P") [.node (str "x") [.node (str "a") []], .node (str "y") [.node (str "a") []]]

theorem diamondTree_reaches_x : Reaches diamondTree [str "x", str "a"] (str "a") :=
  .child _ _ (.node (str "x") [.node (str "a") []]) (by simp) _ _
    (.child _ _ (.node (str "a") []) (by simp) _ _ (.here _ _))

theorem diamondTree_reaches_y : Reaches diamondTree [str "y", str "a"] (str "a") :=
  .child _ _ (.node (str "y") [.node (str "a") []]) (by simp) _ _
    (.child _ _ (.node (str "a") []) (by simp) _ _ (.here _ _))

def setLeaf (n : Int64) (s : Session (World Unit Str) Unit Str) : Session (World Unit Str) Unit Str :=
  s.append (World.lawful Unit Str) (.eConst (.vInt n)) (str "a") [] zeroTime

/-- `9` is written to `a`: the proof goes on to show `1` below `x`. -/
theorem shared_leaf_not_refreshed : diamond.Reachable ∧
    ∃ s₀, Session.compose (World.lawful Unit Str) 4 (str "P") diamond = .ok s₀ ∧
      s₀.proof.rootNode.map (·.sourcePath) = diamondTree ∧
      constAt (setLeaf 9 s₀).store.view (str "a") = some (.vInt 9) ∧
      ¬ (setLeaf 9 s₀).CarriesEverywhere (World.lawful Unit Str) diamondTree (str "a") (.vInt 9) 0 := by
  have htest : (Session.compose (World.lawful Unit Str) 4 (str "P") diamond).toOption.any (fun s₀ =>
      s₀.proof.rootNode.map (·.sourcePath) = diamondTree ∧
      constAt (setLeaf 9 s₀).store.view (str "a") = some (.vInt 9) ∧
      ((setLeaf 9 s₀).reduce (World.lawful Unit Str) 0).1.toOption.bind
        (entry [str "x", str "a"]) = some (.vInt 1)) = true := by decide +kernel
  obtain ⟨s₀, hs₀, htest⟩ := exists_ok_of_any htest
  simp only [decide_eq_true_eq] at htest
  obtain ⟨htree, hcur, hentry⟩ := htest
  refine ⟨diamond_reachable, s₀, hs₀, htree, hcur, ?_⟩
  rintro ⟨r, hr, hall⟩
  rw [hr] at hentry
  change entry _ r = _ at hentry
  rw [hall _ diamondTree_reaches_x] at hentry
  cases hentry

theorem shared_leaf_refreshed_iff_rewritten :
    ∃ s₀, Session.compose (World.lawful Unit Str) 4 (str "P") diamond = .ok s₀ ∧
      (setLeaf 1 (setLeaf 9 s₀)).CarriesEverywhere (World.lawful Unit Str) diamondTree (str "a")
        (.vInt 1) 0 := by
  have htest : (Session.compose (World.lawful Unit Str) 4 (str "P") diamond).toOption.any (fun s₀ =>
      s₀.proof.rootNode.map (·.sourcePath) = diamondTree ∧
      constAt diamond.view (str "a") = some (.vInt 1) ∧
      ((setLeaf 1 (setLeaf 9 s₀)).store.log.map (·.hash)).Nodup ∧
      constAt (setLeaf 1 (setLeaf 9 s₀)).store.view (str "a") = some (.vInt 1)) = true := by
    decide +kernel
  obtain ⟨s₀, hs₀, htest⟩ := exists_ok_of_any htest
  simp only [decide_eq_true_eq] at htest
  obtain ⟨htree, hfirst, hnd, hcur⟩ := htest
  have h := (shared_leaf_refreshed_iff.1 diamond diamond_reachable 4 (str "P") s₀ hs₀ (str "a")
    (.vInt 1) hfirst [str "x", str "a"] [str "y", str "a"] (by decide)
    (by rw [htree]; exact diamondTree_reaches_x) (by rw [htree]; exact diamondTree_reaches_y)
    (setLeaf 9 s₀) (.single (.append .given (.eConst (.vInt 9)) (str "a") [] zeroTime fun _ =>
      ⟨Option.isSome_iff_exists.2 ⟨_, hfirst⟩, _, rfl⟩)) (.vInt 1) [] zeroTime 0 hnd).1 hcur
  rw [htree] at h
  exact ⟨s₀, hs₀, h.2 rfl⟩

end Instances

end Wavicle.Engine
