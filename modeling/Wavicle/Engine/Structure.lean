import Wavicle.Engine.Sessions
import Wavicle.Engine.Denotation
import Wavicle.Storage.CrystalSpec

/-! # Changes of structure

After a write that changes the structure of a tree, a reduction should return what the root denotes on the
current frontier, where the hashes of a composite stand for the paths of the atoms they were given out for. -/

namespace Wavicle.Engine

open Lib Wavicle.Core Storage

section

variable {σ ι H : Type} [Inhabited ι] [DecidableEq H]

def mintedPath (log : List (CausalAtom ι H)) (hash : H) : Option Str :=
  (log.find? (·.hash = hash)).map (·.path)

/-- The hashes are those of atoms that were made for the paths. -/
def Minted (log : List (CausalAtom ι H)) (hs : List H) (ps : List Str) : Prop :=
  hs.map (mintedPath log) = ps.map some

omit [Inhabited ι] in
theorem Minted.unique {log : List (CausalAtom ι H)} (hs : List H) (ps ps' : List Str)
    (h : Minted log hs ps) (h' : Minted log hs ps') : ps = ps' :=
  List.map_injective_iff.2 (Option.some_injective _) (h.symm.trans h')

/-- Over the store `S`, from the state `w₀` on: a proof of `path` is composed, then there are appends
(at the paths of the tree of constants and composites), reductions and whatever else, in any order, and
then a constant or composite is appended at some path. If `path` denotes `d` on the frontier that
results, the next reduction returns `d` exactly if the tree agrees with that frontier. -/
def FollowsStructureIff (S : LawfulStore σ ι H) (w₀ : σ) : Prop :=
  ∀ (fuel : ℕ) (path : Str) (s₀ : Session σ ι H), Session.compose S fuel path w₀ = .ok s₀ →
    ∀ s, Session.Run S (PlainWrite s₀.proof.paths) s₀ s →
    ∀ (e : Expr ι H) (p : Str) (parents : List H) (deadline : Time), IsPlain e →
      Distinct S (s.append S e p parents deadline).store →
    ∀ a d, (S.view (s.append S e p parents deadline).store).current path = some a →
      Denotes (S.view (s.append S e p parents deadline).store)
        (Minted (S.log (s.append S e p parents deadline).store)) a.expr d →
    ∀ fuel', ((s.append S e p parents deadline).reduce S fuel').1 = .ok d ↔
      Agrees (S.view (s.append S e p parents deadline).store)
        (Minted (S.log (s.append S e p parents deadline).store))
        (s.proof.marked (S.view (s.append S e p parents deadline).store))

theorem followsStructureIff_of_good {S : LawfulStore σ ι H} {w₀ : σ} (hw₀ : S.Good w₀) :
    FollowsStructureIff S w₀ := by
  intro fuel path s₀ hcompose s hrun e p parents deadline he hd a d ha hden fuel'
  have hrun' : Session.Run S (PlainWrite s₀.proof.paths) s₀
      (s.append S e p parents deadline) :=
    hrun.tail (.append .given e p parents deadline fun _ => he)
  obtain ⟨hk, hgood, t, ht⟩ := Session.Keeps.of_run hw₀ hcompose hrun' hd
  rw [hk.reduce_fst hgood fuel', Except.ok.injEq]
  exact cached_reduced_eq_iff Minted.unique _ (consistent_marked hk.kept.consistent _ _)
    (upClosed_marked _ _ _) hk.plain_marked (hk.sourcePath_marked ht _ ▸ ha) hden

end

/-- **When a change of structure is followed**, over the sharded cache and over the crystal. -/
theorem structure_change_followed_iff {H : Type} [DecidableEq H] [Hashing H] :
    (∀ w : World Unit H, w.Reachable → FollowsStructureIff (World.lawful Unit H) w) ∧
      (∀ w : CrystalWorld Unit H, w.Reachable → FollowsStructureIff (CrystalWorld.lawful Unit H) w) :=
  ⟨fun _ hw => followsStructureIff_of_good hw.inv, fun _ hw => followsStructureIff_of_good hw.inv⟩

section Instances

local instance bareHashing : Hashing Str := ⟨id, id, fun _ => 0⟩

def hashA : Str :=
  ((World.init 0 0 : World Unit Str).append (.eConst (.vInt 1)) (str "a") zeroTime).1

def withA : World Unit Str := ((World.init 0 0).append (.eConst (.vInt 1)) (str "a") zeroTime).2

def hashB : Str := (withA.append (.eConst (.vInt 2)) (str "b") zeroTime).1

def withAB : World Unit Str := (withA.append (.eConst (.vInt 2)) (str "b") zeroTime).2

def overA : World Unit Str := (withAB.append (.eCompose [hashA]) (str "P") zeroTime).2

theorem overA_reachable : overA.Reachable :=
  (((World.reachable_init 0 0).append _ _ _).append _ _ _).append _ _ _

def become (e : Expr Unit Str) (p : String) (s : Session (World Unit Str) Unit Str) :
    Session (World Unit Str) Unit Str :=
  s.append (World.lawful Unit Str) e (str p) [] zeroTime

/-- The leaf `a` becomes a composite of `b`, and is reduced to an empty record: `P` denotes
`{a: {b: 2}}` and the reduction returns `{a: {}}`. -/
theorem structure_change_not_followed : overA.Reachable ∧
    ∃ s₀, Session.compose (World.lawful Unit Str) 3 (str "P") overA = .ok s₀ ∧
      (∃ a, (become (.eCompose [hashB]) "a" s₀).store.current (str "P") = some a ∧
        Denotes (become (.eCompose [hashB]) "a" s₀).store.view
          (Minted (become (.eCompose [hashB]) "a" s₀).store.log) a.expr
          (newRecord [(str "a", newRecord [(str "b", .vInt 2)])])) ∧
      ((become (.eCompose [hashB]) "a" s₀).reduce (World.lawful Unit Str) 0).1 ≠
        .ok (newRecord [(str "a", newRecord [(str "b", .vInt 2)])]) := by
  have htest : (Session.compose (World.lawful Unit Str) 3 (str "P") overA).toOption.any (fun s₀ =>
      ((become (.eCompose [hashB]) "a" s₀).store.current (str "P")).map (·.expr) =
        some (.eCompose [hashA]) ∧
      ((become (.eCompose [hashB]) "a" s₀).store.current (str "a")).map (·.expr) =
        some (.eCompose [hashB]) ∧
      ((become (.eCompose [hashB]) "a" s₀).store.current (str "b")).map (·.expr) =
        some (.eConst (.vInt 2)) ∧
      mintedPath (become (.eCompose [hashB]) "a" s₀).store.log hashA = some (str "a") ∧
      mintedPath (become (.eCompose [hashB]) "a" s₀).store.log hashB = some (str "b") ∧
      ((become (.eCompose [hashB]) "a" s₀).reduce (World.lawful Unit Str) 0).1.toOption =
        some (newRecord [(str "a", newRecord [])])) = true := by decide +kernel
  obtain ⟨s₀, hs₀, htest⟩ := exists_ok_of_any htest
  simp only [decide_eq_true_eq] at htest
  obtain ⟨hP, ha, hb, hpa, hpb, hred⟩ := htest
  obtain ⟨atomP, hP, heP⟩ := Option.map_eq_some_iff.1 hP
  obtain ⟨atomA, ha, heA⟩ := Option.map_eq_some_iff.1 ha
  obtain ⟨atomB, hb, heB⟩ := Option.map_eq_some_iff.1 hb
  refine ⟨overA_reachable, s₀, hs₀, ⟨atomP, hP, ?_⟩, fun heq => ?_⟩
  swap
  · rw [heq] at hred
    exact absurd (Option.some.inj hred) (by decide)
  rw [heP]
  refine .compose [hashA] [str "a"] (fun _ => atomA) (fun _ => newRecord [(str "b", .vInt 2)])
    (by simp [Minted, hpa]) (fun p hp => List.mem_singleton.1 hp ▸ ha) fun p _ => ?_
  rw [heA]
  refine .compose [hashB] [str "b"] (fun _ => atomB) (fun _ => .vInt 2)
    (by simp [Minted, hpb]) (fun p hp => List.mem_singleton.1 hp ▸ hb) fun p _ => ?_
  rw [heB]
  exact .const _

theorem structure_change_followed_iff_const :
    ∃ s₀, Session.compose (World.lawful Unit Str) 3 (str "P") overA = .ok s₀ ∧
      ((become (.eConst (.vInt 5)) "P" s₀).reduce (World.lawful Unit Str) 0).1 = .ok (.vInt 5) := by
  have htest : (Session.compose (World.lawful Unit Str) 3 (str "P") overA).toOption.any (fun s₀ =>
      ((become (.eConst (.vInt 5)) "P" s₀).store.current (str "P")).map (·.expr) =
        some (.eConst (.vInt 5)) ∧
      ((become (.eConst (.vInt 5)) "P" s₀).store.log.map (·.hash)).Nodup ∧
      (s₀.proof.marked (become (.eConst (.vInt 5)) "P" s₀).store.view).label.sourcePath = str "P" ∧
      ((s₀.proof.marked (become (.eConst (.vInt 5)) "P" s₀).store.view).label.refreshed
        (become (.eConst (.vInt 5)) "P" s₀).store.view).expr = .eConst (.vInt 5)) = true := by
    decide +kernel
  obtain ⟨s₀, hs₀, htest⟩ := exists_ok_of_any htest
  simp only [decide_eq_true_eq] at htest
  obtain ⟨hP, hnd, hpath, hexpr⟩ := htest
  obtain ⟨atomP, hP, heP⟩ := Option.map_eq_some_iff.1 hP
  have hden : Denotes (become (.eConst (.vInt 5)) "P" s₀).store.view
      (Minted (become (.eConst (.vInt 5)) "P" s₀).store.log) atomP.expr (.vInt 5) := by
    rw [heP]
    exact .const _
  refine ⟨s₀, hs₀, (structure_change_followed_iff.1 overA overA_reachable 3 (str "P") s₀ hs₀ s₀ .refl
    (.eConst (.vInt 5)) (str "P") [] zeroTime trivial hnd atomP (.vInt 5) hP hden 0).2 ?_⟩
  cases hm : s₀.proof.marked (become (.eConst (.vInt 5)) "P" s₀).store.view with
  | node info cs =>
    rw [hm, Rose.label_node] at hpath hexpr
    have hagrees : Agrees (become (.eConst (.vInt 5)) "P" s₀).store.view
        (Minted (become (.eConst (.vInt 5)) "P" s₀).store.log) (.node info cs) :=
      .const info cs atomP (.vInt 5) hexpr (hpath ▸ hP) hden
    rw [← hm] at hagrees
    exact hagrees

end Instances

end Wavicle.Engine
