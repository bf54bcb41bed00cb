import Wavicle.Engine.LeafRuns
import Wavicle.Storage.CrystalSpec

/-! # Incremental reduction is exact

If the paths of a proof's nodes are non-empty and different from each other, the path index leads to
every node, so every leaf that was written is read again: a reduction returns what the tree spells out
over the current values, and counts the leaves that were written since the last one. -/

namespace Wavicle.Engine

open Lib Wavicle.Core Storage

section

variable {ι H : Type} [Inhabited ι] [DecidableEq H]

omit [DecidableEq H] in
theorem Grown.cached_eq_nested {V₀ V : View ι H} {Q : ℕ → Str → Expr ι H → Prop} {paths : List Str}
    (hV : LeafView V₀ V paths) (hQ : ∀ addr p e, Q addr p e → ∃ a, V.current p = some a ∧ e = a.expr)
    (t : ProofNode ι H) (ht : Grown V₀ Q t) (hc : Consistent t)
    (hsub : t.labels.map (·.sourcePath) ⊆ paths) :
    ProofNode.cached t = nested (constAt V) (t.map (·.sourcePath)) := by
  induction t using Rose.induct with
  | node info cs ih =>
    have hpath : info.sourcePath ∈ paths := hsub (by rw [Rose.labels_node]; exact List.mem_cons_self)
    rw [hc.cached, Rose.map_node, nested_node]
    cases hc with
    | node _ _ below plain own =>
      cases ht with
      | leaf _ was now =>
        obtain ⟨a, ha, he⟩ := hQ _ _ _ now
        obtain ⟨v, hv⟩ := hV.leaf _ hpath was a ha
        rw [he, hv, ownValue_eConst, constAt_eq_some.2 ⟨a, ha, hv⟩]
      | inner _ _ a hs was compose now below' =>
        have hnone : constAt V info.sourcePath = none := by
          rw [Option.eq_none_iff_forall_ne_some]
          intro v hv
          obtain ⟨b, hb, he⟩ := constAt_eq_some.1 hv
          have hb' := hV.inner _ hpath (constAt_of_compose was compose) b hb
          rw [was] at hb'
          obtain rfl := Option.some.inj hb'
          rw [compose] at he
          cases he
        rw [hnone, now, compose, ownValue_eCompose, List.map_map]
        congr 1
        refine List.map_congr_left fun c hc => ?_
        rw [Function.comp_apply, ProofNode.field,
          ih c hc (below' c hc) (below c hc) (paths_subset_child hsub hc), Rose.label_map]

omit [DecidableEq H] in
theorem Composed.lookup_of_nodup {V : View ι H} {path : Str} {t : ProofNode ι H}
    {proof : MaterializedProof ι H} (h : Composed V path t proof) (hnd : proof.paths.Nodup)
    {n : ProofNode ι H} (hn : n.map NodeInfo.key = proof.rootNode.map NodeInfo.key)
    {info : NodeInfo ι H} (hinfo : info ∈ n.labels) :
    proof.pathToNode.lookup info.sourcePath = some info.addr := by
  have hkeys : n.labels.map NodeInfo.key = t.labels.map NodeInfo.key := by
    rw [← Rose.labels_map, ← Rose.labels_map, hn, h.rootNode, map_key_reduced V t h.plain]
  have hmem : info.key ∈ t.labels.map NodeInfo.key := hkeys ▸ List.mem_map.2 ⟨info, hinfo, rfl⟩
  obtain ⟨i, hi, hkey⟩ := List.mem_map.1 hmem
  obtain ⟨haddr, hpath⟩ := Prod.mk.inj hkey
  rw [h.pathToNode, ← haddr, ← hpath]
  rw [h.paths] at hnd
  exact lookup_indexed_of_nodup _ _ hnd i hi

end

section

variable {σ ι H : Type} [Inhabited ι] [DecidableEq H] {S : LawfulStore σ ι H} {w₀ : σ}
  {s s₀ : Session σ ι H}

/-- The leaves of a tree whose current hash is another one than at the last reduction. -/
def changedLeaves (V₀ Vlast V : View ι H) (paths : List Str) : List Str :=
  (paths.filter fun p => (constAt V₀ p).isSome).filter fun p => V.currentHash p ≠ Vlast.currentHash p

theorem LeafSession.value_eq {path : Str} {t : ProofNode ι H}
    (ht : Composed (S.view w₀) path t s₀.proof) (hs : LeafSession S w₀ s₀.proof s)
    (hgood : S.Good s.store) (hd : Distinct S s.store) (hne : ∀ p ∈ s₀.proof.paths, p ≠ [])
    (hnd : s₀.proof.paths.Nodup) (hlive : ∀ p ∈ s₀.proof.paths, (S.view s.store).current p ≠ none) :
    (reduced (S.view s.store) (s.proof.marked (S.view s.store))).cached =
      nested (constAt (S.view s.store)) (s₀.proof.rootNode.map (·.sourcePath)) := by
  have hshape : (reduced (S.view s.store) (s.proof.marked (S.view s.store))).map NodeInfo.key =
      s₀.proof.rootNode.map NodeInfo.key :=
    (map_key_after _ hs.keeps.plain_marked).trans hs.keeps.shape
  have hpaths := map_path_of_map_key hshape
  have hgrown : Grown (S.view w₀) (fun _ p e => ∃ a, (S.view s.store).current p = some a ∧ e = a.expr)
      (reduced (S.view s.store) (s.proof.marked (S.view s.store))) := by
    refine Grown.mono _ (fun info hinfo hheld => ?_) (hs.grown_after hgood ⟨0, 0, 0⟩)
    have hp : info.sourcePath ∈ s₀.proof.paths := by
      change info.sourcePath ∈ s₀.proof.rootNode.labels.map (·.sourcePath)
      rw [← hpaths]
      exact List.mem_map.2 ⟨info, hinfo, rfl⟩
    obtain ⟨b, hb⟩ := Option.ne_none_iff_exists'.1 (hlive _ hp)
    obtain ⟨a, ha, hvv, he⟩ := hheld.tracked (hne _ hp) (by
      rw [hs.keeps.index]
      exact ht.lookup_of_nodup hnd hshape hinfo)
    -- the version vector has the current hash, so the node has the expression of the current atom
    have hrec := hs.recorded_after (S.view s.store) ⟨0, 0, 0⟩ hp (hne _ hp)
      (show (S.view s.store).currentHash info.sourcePath = some b.hash by rw [View.currentHash, hb]; rfl)
    rw [hvv] at hrec
    have hab := List.inj_on_of_nodup_map hd ha (S.logged _ hgood _ _ hb) (Option.some.inj hrec)
    exact ⟨b, hb, hab ▸ he⟩
  have hcons := (hs.keeps.kept.after hs.keeps.plain_marked ⟨0, 0, 0⟩).consistent
  rw [← map_path_eq_of_map_key hshape]
  refine hgrown.cached_eq_nested hs.view (fun _ _ _ h => h) _ hcons ?_
  rw [hpaths]
  exact List.Subset.refl _

theorem LeafSession.length_changed (hs : LeafSession S w₀ s₀.proof s)
    (hne : ∀ p ∈ s₀.proof.paths, p ≠ []) (hnd : s₀.proof.paths.Nodup)
    (hlast : ∀ p ∈ s₀.proof.paths, (S.view s.last).current p ≠ none)
    (hlive : ∀ p ∈ s₀.proof.paths, (S.view s.store).current p ≠ none) :
    (s.proof.changed (S.view s.store)).length =
      (changedLeaves (S.view w₀) (S.view s.last) (S.view s.store) s₀.proof.paths).length := by
  refine List.Perm.length_eq ((List.perm_ext_iff_of_nodup ?_ ?_).2 fun p => ?_)
  · have hkeys : (s.proof.versionVector.entries.map Sigma.fst).Nodup :=
      AList.keys_nodup s.proof.versionVector
    exact hkeys.sublist (List.filter_sublist.map _)
  · exact (hnd.filter _).filter _
  · rw [mem_changed, changedLeaves, List.mem_filter, List.mem_filter, decide_eq_true_eq]
    constructor
    · rintro ⟨h, hlook, hch⟩
      obtain ⟨-, hp⟩ := (hs.vector p).1 (by rw [hlook]; rfl)
      obtain ⟨b, hb⟩ := Option.ne_none_iff_exists'.1 (hlast p hp)
      have hrec := hs.recorded p hp (hne p hp) b.hash (by rw [View.currentHash, hb]; rfl)
      rw [hlook] at hrec
      have hlastHash : (S.view s.last).currentHash p = some h := by
        rw [View.currentHash, hb, Option.map_some, hrec]
      refine ⟨⟨hp, ?_⟩, by rwa [hlastHash]⟩
      -- the hash of a composite cannot have changed
      by_contra hno
      have hnone : constAt (S.view w₀) p = none := by simpa using hno
      obtain ⟨c, hc⟩ := Option.ne_none_iff_exists'.1 (hlive p hp)
      have hb₀ := hs.lastView.inner p hp hnone b hb
      have hc₀ := hs.view.inner p hp hnone c hc
      rw [hb₀] at hc₀
      rw [View.currentHash, hc, ← Option.some.inj hc₀, Option.map_some, hrec] at hch
      exact hch rfl
    · rintro ⟨⟨hp, hleaf⟩, hch⟩
      obtain ⟨h, hlook⟩ := Option.isSome_iff_exists.1 ((hs.vector p).2 ⟨hne p hp, hp⟩)
      obtain ⟨b, hb⟩ := Option.ne_none_iff_exists'.1 (hlast p hp)
      have hlastHash : (S.view s.last).currentHash p = some b.hash := by rw [View.currentHash, hb]; rfl
      have hrec := hs.recorded p hp (hne p hp) b.hash hlastHash
      rw [hlastHash] at hch
      exact ⟨b.hash, hrec, hch⟩

/-- Over the store `S`, from the state `w₀` on: a proof is composed whose nodes have non-empty and
pairwise different paths, then constants are written to its leaves (and anything to other paths) and
the proof is reduced, in any order. As long as no path of the tree has lost its atom, now or at the
last reduction, a reduction returns the nested record of the current values and reports the number of
leaves that have another hash than at the last reduction. -/
def ReducesExactly (S : LawfulStore σ ι H) (w₀ : σ) : Prop :=
  ∀ (fuel : ℕ) (path : Str) (s₀ : Session σ ι H), Session.compose S fuel path w₀ = .ok s₀ →
    (∀ p ∈ s₀.proof.paths, p ≠ []) → s₀.proof.paths.Nodup →
    ∀ s, Session.Run S (LeafWrite (S.view w₀) s₀.proof.paths) s₀ s → Distinct S s.store →
      (∀ p ∈ s₀.proof.paths, (S.view s.last).current p ≠ none) →
      (∀ p ∈ s₀.proof.paths, (S.view s.store).current p ≠ none) →
      ∀ fuel', (s.reduce S fuel').1 =
          .ok (nested (constAt (S.view s.store)) (s₀.proof.rootNode.map (·.sourcePath))) ∧
        (s.reduce S fuel').2.proof.reduceStats.changedPaths =
          (changedLeaves (S.view w₀) (S.view s.last) (S.view s.store) s₀.proof.paths).length

theorem reducesExactly_of_good (hw₀ : S.Good w₀) : ReducesExactly S w₀ := by
  intro fuel path s₀ hcompose hne hnd s hrun hd hlast hlive fuel'
  obtain ⟨hs, hgood, t, ht⟩ := LeafSession.of_run hw₀ hcompose hrun hd
  refine ⟨?_, ?_⟩
  · rw [hs.keeps.reduce_fst hgood, hs.value_eq ht hgood hd hne hnd hlive]
  · rw [(Session.reduce_spec hgood fuel').2.1, ← hs.length_changed hne hnd hlast hlive]
    rcases eval_reduceIncremental hs.keeps.kept.addr_nodup hs.keeps.plain_marked fuel' with
      ⟨hnil, heval⟩ | ⟨-, stats, hstats, heval⟩
    · rw [heval, hnil]
      rfl
    · rw [heval]
      exact hstats

end

/-- **Incremental reduction is exact**, over the sharded cache and over the crystal. -/
theorem incremental_reduction_exact {H : Type} [DecidableEq H] [Hashing H] :
    (∀ w : World Unit H, w.Reachable → ReducesExactly (World.lawful Unit H) w) ∧
      (∀ w : CrystalWorld Unit H, w.Reachable → ReducesExactly (CrystalWorld.lawful Unit H) w) :=
  ⟨fun _ hw => reducesExactly_of_good hw.inv, fun _ hw => reducesExactly_of_good hw.inv⟩

section Instances

local instance byteHashing : Hashing Str := ⟨id, id, fun _ => 0⟩

def oneLeaf : World Unit Str := ((World.init 0 0).append (.eConst (.vInt 1)) (str "a") zeroTime).2

def twoLeaves : World Unit Str := (oneLeaf.append (.eConst (.vInt 2)) (str "b") zeroTime).2

def composite : World Unit Str :=
  (twoLeaves.append (.eCompose [((World.init 0 0 : World Unit Str).append (.eConst (.vInt 1))
    (str "a") zeroTime).1, (oneLeaf.append (.eConst (.vInt 2)) (str "b") zeroTime).1])
    (str "P") zeroTime).2

theorem composite_reachable : composite.Reachable :=
  (((World.reachable_init 0 0).append _ _ _).append _ _ _).append _ _ _

def overwritten (s : Session (World Unit Str) Unit Str) : Session (World Unit Str) Unit Str :=
  { s with store := (s.store.append (.eConst (.vInt 9)) (str "a") zeroTime).2 }

theorem incremental_reduction_exact_overwrite :
    ∃ s₀, Session.compose (World.lawful Unit Str) 3 (str "P") composite = .ok s₀ ∧
      ((overwritten s₀).reduce (World.lawful Unit Str) 0).1 =
        .ok (.vRecord () [(str "a", .vInt 9), (str "b", .vInt 2)]) ∧
      ((overwritten s₀).reduce (World.lawful Unit Str) 0).2.proof.reduceStats.changedPaths = 1 := by
  have htest : (Session.compose (World.lawful Unit Str) 3 (str "P") composite).toOption.any
      (fun s => s.proof.paths = [str "P", str "a", str "b"] ∧
        ((overwritten s).store.log.map (·.hash)).Nodup ∧
        (∀ p ∈ [str "P", str "a", str "b"],
          (s.last.current p).isSome ∧ ((overwritten s).store.current p).isSome) ∧
        (constAt composite.view (str "a")).isSome ∧
        nested (constAt (overwritten s).store.view) (s.proof.rootNode.map (·.sourcePath)) =
          .vRecord () [(str "a", .vInt 9), (str "b", .vInt 2)] ∧
        (changedLeaves composite.view s.last.view (overwritten s).store.view
          s.proof.paths).length = 1) = true := by decide +kernel
  obtain ⟨s₀, hs₀, htest⟩ := exists_ok_of_any htest
  simp only [decide_eq_true_eq] at htest
  obtain ⟨hpaths, hnd, hlive, hleaf, hnested, hchanged⟩ := htest
  have h := incremental_reduction_exact.1 composite composite_reachable 3 (str "P") s₀ hs₀
    (by rw [hpaths]; decide) (by rw [hpaths]; decide) (overwritten s₀)
    (.single (.append .given (.eConst (.vInt 9)) (str "a") [] zeroTime fun _ => ⟨hleaf, _, rfl⟩)) hnd
    (by rw [hpaths]; exact fun p hp => Option.isSome_iff_ne_none.1 (hlive p hp).1)
    (by rw [hpaths]; exact fun p hp => Option.isSome_iff_ne_none.1 (hlive p hp).2) 0
  exact ⟨s₀, hs₀, h.1.trans (congrArg Except.ok hnested), h.2.trans hchanged⟩

end Instances

end Wavicle.Engine
