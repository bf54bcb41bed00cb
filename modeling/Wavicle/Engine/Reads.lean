import Wavicle.Engine.Compose

/-! # The engine only reads the store

No program of the engine appends an atom or lists the paths of the store, so its result is a function
of the store's view (`Shows.run`). -/

namespace Wavicle.Engine

open Lib Wavicle.Core Storage Prog

variable {ι H : Type} [Inhabited ι]

/-- The program does not append. -/
abbrev Reads {α : Type} (p : StoreProg ι H α) : Prop := p.CallsOnly StoreCall.IsRead

omit [Inhabited ι] in
theorem reads_refresh (info : NodeInfo ι H) : Reads (refresh info) := by
  unfold refresh
  split_ifs
  · refine callsOnly_bind (fun r => ?_) (callsOnly_ask trivial)
    cases r <;> exact trivial
  · exact trivial

theorem reads_reduceChildren {fuel : ℕ} : ∀ (k : ℕ) (cs : List (ProofNode ι H)),
    (∀ c ∈ cs, ∀ stats, Reads (reduceDirty fuel c stats)) →
      ∀ stats, Reads (reduceDirty.reduceChildren fuel k cs stats)
  | _, [], _, stats => by
    rw [reduceDirty.reduceChildren]
    exact trivial
  | 0, c :: cs, _, stats => by
    rw [reduceDirty.reduceChildren]
    exact trivial
  | k + 1, c :: cs, h, stats => by
    rw [reduceDirty.reduceChildren]
    refine callsOnly_bind (fun r => ?_) (h c (.head _) stats)
    obtain ⟨r, c', st⟩ := r
    cases r with
    | error f => exact trivial
    | ok v =>
      refine callsOnly_bind (fun _ => ?_)
        (reads_reduceChildren k cs (List.forall_mem_cons.1 h).2 st)
      exact trivial

theorem reads_reduceDirty (fuel : ℕ) (n : ProofNode ι H) : ∀ stats, Reads (reduceDirty fuel n stats) := by
  induction n using Rose.induct with
  | node info cs ih =>
    intro stats
    rw [reduceDirty]
    split
    · exact trivial
    · refine callsOnly_bind (fun info' => ?_) (reads_refresh info)
      refine callsOnly_bind (fun _ => ?_) (reads_reduceChildren _ cs ih _)
      exact trivial

omit [Inhabited ι] in
theorem reads_updateVector : ∀ (paths : List Str) (vv : VersionVector H),
    Reads (updateVector paths vv : StoreProg ι H _)
  | [], _ => trivial
  | path :: paths, vv => by
    rw [updateVector]
    refine callsOnly_bind (fun r => ?_) (callsOnly_ask trivial)
    cases r <;> exact reads_updateVector paths _

theorem reads_reduceIncremental (fuel : ℕ) (proof : MaterializedProof ι H) :
    Reads (reduceIncremental fuel proof) := by
  unfold reduceIncremental
  refine callsOnly_bind (fun r => ?_) (callsOnly_ask trivial)
  cases r with
  | true => exact trivial
  | false =>
    refine callsOnly_bind (fun changed => ?_) (callsOnly_ask trivial)
    refine callsOnly_bind (fun r => ?_) (reads_reduceDirty fuel _ _)
    obtain ⟨r, root, stats⟩ := r
    cases r with
    | error f => exact trivial
    | ok v =>
      refine callsOnly_bind (fun _ => ?_) (reads_updateVector _ _)
      exact trivial

section

omit [Inhabited ι]

theorem reads_buildChildren {build : Str → Builder → StoreProg ι H (Built ι H)}
    (hbuild : ∀ path b, Reads (build path b)) : ∀ (hs : List H) (b : Builder),
    Reads (buildChildren build hs b)
  | [], _ => trivial
  | h :: hs, b => by
    rw [buildChildren]
    refine callsOnly_bind (fun r => ?_) (callsOnly_ask trivial)
    cases r with
    | none => exact reads_buildChildren hbuild hs b
    | some a =>
      refine callsOnly_bind (fun r => ?_) (hbuild a.path b)
      obtain ⟨r, b'⟩ := r
      cases r with
      | error f => exact trivial
      | ok child =>
        refine callsOnly_bind (fun _ => ?_) (reads_buildChildren hbuild hs b')
        exact trivial

theorem reads_buildProofNode : ∀ (fuel : ℕ) (path : Str) (b : Builder),
    Reads (buildProofNode fuel path b : StoreProg ι H (Built ι H))
  | 0, _, _ => trivial
  | fuel + 1, path, b => by
    rw [buildProofNode]
    refine callsOnly_bind (fun r => ?_) (callsOnly_ask trivial)
    cases r with
    | none => exact trivial
    | some a =>
      simp only
      split
      · refine callsOnly_bind (fun _ => ?_)
          (reads_buildChildren (reads_buildProofNode fuel) _ _)
        exact trivial
      · exact trivial

theorem reads_captureVersionVector (a : CausalAtom ι H) : Reads (captureVersionVector a) := by
  unfold captureVersionVector
  split_ifs
  · refine callsOnly_bind (fun r => ?_) (callsOnly_ask trivial)
    cases r <;> exact trivial
  · exact trivial

theorem reads_captureNodes : ∀ (paths : List Str) (vv : VersionVector H),
    Reads (captureNodes paths vv : StoreProg ι H _)
  | [], _ => trivial
  | path :: paths, vv => by
    rw [captureNodes]
    split_ifs
    · refine callsOnly_bind (fun r => ?_) (callsOnly_ask trivial)
      cases r <;> exact reads_captureNodes paths _
    · exact reads_captureNodes paths vv

end

theorem reads_composeProof (fuel : ℕ) (path : Str) : Reads (composeProof fuel path : StoreProg ι H _) := by
  unfold composeProof
  refine callsOnly_bind (fun r => ?_) (callsOnly_ask trivial)
  cases r with
  | none => exact trivial
  | some atom =>
    refine callsOnly_bind (fun r => ?_) (reads_buildProofNode fuel path _)
    obtain ⟨r, b⟩ := r
    cases r with
    | error f => exact trivial
    | ok rootNode =>
      refine callsOnly_bind (fun vv => ?_) (reads_captureVersionVector atom)
      refine callsOnly_bind (fun vv => ?_) (reads_captureNodes _ _)
      cases rootNode with
      | none => exact trivial
      | some root =>
        refine callsOnly_bind (fun r => ?_) (reads_reduceDirty fuel root _)
        obtain ⟨r, root', stats⟩ := r
        cases r <;> exact trivial

end Wavicle.Engine
