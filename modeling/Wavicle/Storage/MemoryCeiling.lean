import Wavicle.Storage.OwnEviction
import Wavicle.Storage.VersionVectors

/-! # The memory ceiling

An append that finds the cache at its ceiling evicts paths until the target is met.

* `Limited`: the counters are right and within the ceiling; every step keeps it (`limited_act`).
* `memory_ceiling`: after every run the loop of an append ends, and leaves the bytes within the limits. -/

namespace Wavicle.Storage

open Lib Wavicle.Core

variable {ι H : Type} [DecidableEq H] [Hashing H]

omit [Hashing H] in
theorem FrontierShard.bytes_sweep_le (s : FrontierShard ι H) (now : Time) :
    (s.sweep now).bytes ≤ s.bytes := by
  unfold FrontierShard.sweep
  generalize s.entries.entries = es
  induction es generalizing s with
  | nil => exact le_rfl
  | cons e es ih =>
    rw [List.foldl_cons]
    refine (ih _).trans ?_
    split_ifs
    · have hpos := estimateAtomBytes_pos e.1 e.2
      rw [bytes_sweepEntry]
      omega
    · exact le_rfl

namespace ShardedFrontierCache

variable {f : ShardedFrontierCache ι H} {target : ℤ}

/-! ### The eviction loop -/

/-- The loop ends by itself: from some number of rounds on, it has the same result. -/
def LoopEnds (f : ShardedFrontierCache ι H) (target : ℤ) : Prop :=
  ∃ rounds, ∀ fuel ≥ rounds, evictRounds target fuel f = f.evictToTarget target

section

omit [Hashing H]

theorem Balanced.currentBytes_evictToTarget (h : f.Balanced) (htarget : 0 ≤ target) :
    (f.evictToTarget target).currentBytes ≤ target := by
  obtain ⟨hb, -, hend⟩ := h.evictToTarget target
  by_contra hover
  rw [not_le, ← hb.totalWeight] at hover
  by_cases hnil : ∀ i, (f.evictToTarget target).queues i = []
  · have hzero : Lib.totalWeight (·.2) (f.evictToTarget target).queues = 0 :=
      Finset.sum_eq_zero fun i _ => by rw [hnil i]; rfl
    omega
  · obtain ⟨i, hi⟩ := not_forall.1 hnil
    obtain ⟨a, rest, hqueue⟩ := List.exists_cons_of_ne_nil hi
    obtain ⟨next, hnext⟩ := exists_dropsHeaviest hb.positive hqueue hover
    exact hend next hnext

theorem evictRounds_add {fuel : ℕ} (h : (evictRounds target fuel f).currentBytes ≤ target) (more : ℕ) :
    evictRounds target (fuel + more) f = evictRounds target fuel f := by
  induction fuel generalizing f with
  | zero =>
    cases more with
    | zero => rfl
    | succ more =>
      rw [Nat.zero_add, evictRounds]
      exact if_pos h
  | succ fuel ih =>
    rw [Nat.succ_add, evictRounds, evictRounds]
    rw [evictRounds] at h
    split_ifs at h ⊢
    · rfl
    · cases hround : f.evictRound with
      | none => rfl
      | some f' =>
        rw [hround] at h
        dsimp only at h ⊢
        split_ifs at h ⊢
        · rfl
        · exact ih h

theorem Balanced.loopEnds (h : f.Balanced) (htarget : 0 ≤ target) : f.LoopEnds target := by
  refine ⟨((List.finRange 32).map fun i => (f.shards i).lruList.len).sum, fun fuel hfuel => ?_⟩
  obtain ⟨more, rfl⟩ := Nat.exists_eq_add_of_le hfuel
  exact evictRounds_add (h.currentBytes_evictToTarget htarget) more

theorem maxMemoryBytes_evictRounds (target : ℤ) (fuel : ℕ) (f : ShardedFrontierCache ι H) :
    (evictRounds target fuel f).maxMemoryBytes = f.maxMemoryBytes := by
  induction fuel generalizing f with
  | zero => rfl
  | succ fuel ih =>
    rw [evictRounds]
    split_ifs
    · rfl
    · cases hround : f.evictRound with
      | none => rfl
      | some f' =>
        have hmax : f'.maxMemoryBytes = f.maxMemoryBytes := by
          unfold evictRound at hround
          split at hround
          · cases hround
          · split_ifs at hround
            split at hround
            · cases hround
            · rw [← Option.some.inj hround]
        dsimp only
        split_ifs
        · exact hmax
        · exact (ih f').trans hmax

end

/-! ### All methods -/

/-- The bytes are below the ceiling, or at most at the target. -/
def WithinLimits (f : ShardedFrontierCache ι H) : Prop :=
  f.currentBytes < f.ceiling ∨ f.currentBytes ≤ f.target

/-- The counters are right, and within a ceiling that there is. -/
structure Limited (f : ShardedFrontierCache ι H) : Prop where
  balanced : f.Balanced
  limited : 0 < f.maxMemoryBytes
  within : f.WithinLimits

omit [DecidableEq H] [Hashing H] in
theorem limited_new (maxBytes : ℤ) : (new maxBytes : ShardedFrontierCache ι H).Limited := by
  refine ⟨balanced_new maxBytes, ?_, .inr (Int.natCast_nonneg _)⟩
  unfold new
  dsimp only
  split_ifs <;> omega

omit [DecidableEq H] [Hashing H] in
theorem Limited.shrink (h : f.Limited) {f' : ShardedFrontierCache ι H} (hb : f'.Balanced)
    (hmax : f'.maxMemoryBytes = f.maxMemoryBytes) (hbytes : f'.currentBytes ≤ f.currentBytes) :
    f'.Limited := by
  refine ⟨hb, hmax ▸ h.limited, ?_⟩
  have hwithin := h.within
  unfold WithinLimits ceiling ShardedFrontierCache.target at hwithin ⊢
  rw [hmax]
  omega

theorem insertAtom_limits (f : ShardedFrontierCache ι H) (atom : CausalAtom ι H) :
    (f.insertAtom atom).2.1.maxMemoryBytes = f.maxMemoryBytes ∧
      ((f.insertAtom atom).2.2 = false → (f.insertAtom atom).2.1.currentBytes = f.currentBytes) := by
  have hreplace : (f.replace atom).maxMemoryBytes = f.maxMemoryBytes := by
    unfold replace
    dsimp only
    cases f.resident atom.path <;> rfl
  unfold insertAtom
  split
  · exact ⟨hreplace, Bool.noConfusion⟩
  · split
    · exact ⟨rfl, fun _ => rfl⟩
    · exact ⟨rfl, fun _ => rfl⟩
    · exact ⟨hreplace, Bool.noConfusion⟩

omit [DecidableEq H] [Hashing H] in
theorem target_congr {f' : ShardedFrontierCache ι H} (h : f'.maxMemoryBytes = f.maxMemoryBytes) :
    f'.target = f.target := by
  unfold ShardedFrontierCache.target
  rw [h]

theorem Limited.appendAtom (h : f.Limited) (now : Time) (expr : Expr ι H) (path : Str)
    (expiresAt : Time) : (f.appendAtom now expr path expiresAt).2.Limited := by
  have hb := (h.balanced.tick (f.clock + 1)).insertAtom (f.mint now expr path expiresAt)
  obtain ⟨hmax, hdropped⟩ := insertAtom_limits { f with clock := f.clock + 1 } (f.mint now expr path expiresAt)
  unfold ShardedFrontierCache.appendAtom
  dsimp only
  revert hb hmax hdropped
  generalize insertAtom { f with clock := f.clock + 1 } (f.mint now expr path expiresAt) = r
  obtain ⟨hash, f', took⟩ := r
  intro hb hmax hdropped
  cases took with
  | false => exact h.shrink hb hmax (hdropped rfl).le
  | true =>
    have hpos : 0 < f'.maxMemoryBytes := hmax ▸ h.limited
    dsimp only
    split_ifs with hover
    · have hmax' : (f'.evictToTarget f'.target).maxMemoryBytes = f'.maxMemoryBytes :=
        maxMemoryBytes_evictRounds f'.target _ f'
      refine ⟨(hb.evictToTarget f'.target).1, hmax'.symm ▸ hpos, .inr ?_⟩
      rw [target_congr hmax']
      exact hb.currentBytes_evictToTarget (Int.natCast_nonneg _)
    · refine ⟨hb, hpos, .inl (not_le.1 fun hle => hover ?_)⟩
      exact decide_eq_true ⟨hpos, hle⟩

omit [Hashing H] in
theorem Limited.sweepExpired (h : f.Limited) (now : Time) : (f.sweepExpired now).Limited := by
  have hsum : (f.sweepExpired now).currentBytes = f.currentBytes +
      ∑ i, (((f.shards i).sweep now).bytes - (f.shards i).bytes) := by
    rw [Fin.sum_univ_def]
    rfl
  refine h.shrink ⟨fun i => (h.balanced.sound i).sweep now, ?_⟩ rfl ?_
  · rw [hsum, h.balanced.currentBytes_eq, Finset.sum_sub_distrib]
    exact add_sub_cancel _ _
  · have hle : ∑ i, (((f.shards i).sweep now).bytes - (f.shards i).bytes) ≤ 0 :=
      Finset.sum_nonpos fun i _ => by
        have := (f.shards i).bytes_sweep_le now
        omega
    omega

omit [DecidableEq H] in
theorem Limited.getCurrent (h : f.Limited) (now : Time) (path : Str) :
    (f.getCurrent now path).2.Limited := by
  refine h.shrink (h.balanced.getCurrent now path) ?_ ?_ <;>
  · unfold ShardedFrontierCache.getCurrent
    split
    · rfl
    · split_ifs <;> rfl

end ShardedFrontierCache

namespace World

theorem limited_act {w : World ι H} (h : w.cache.Limited) (a : Act ι H) : (w.act a).cache.Limited := by
  cases a with
  | call c =>
    obtain ⟨via, op⟩ := c
    cases op with
    | appendAtom expr path parents expiresAt => exact h.appendAtom w.now expr path expiresAt
    | getCurrent path => exact h.getCurrent w.now path
    | getAtom | frontierPaths | verifyVersionVector | getCurrentHash | findChangedPaths => exact h
  | wait => exact h
  | sweep => exact h.sweepExpired w.now

theorem limited_after {w : World ι H} (h : w.cache.Limited) (acts : List (Act ι H)) :
    (w.after acts).cache.Limited := by
  induction acts generalizing w with
  | nil => exact h
  | cons a acts ih => exact ih (limited_act h a)

/-- **The memory ceiling holds**: after any run, the eviction loop of an append ends, and the append leaves the
bytes below the ceiling or at most at the target. -/
theorem memory_ceiling (maxBytes : ℤ) (now : Time) (acts : List (Act ι H)) (expr : Expr ι H) (path : Str)
    (expiresAt : Time) :
    let w : World ι H := (init maxBytes now).after acts
    let inserted := ({ w.cache with clock := w.cache.clock + 1 }.insertAtom (w.mint expr path expiresAt)).2.1
    inserted.LoopEnds inserted.target ∧ (w.append expr path expiresAt).2.cache.WithinLimits := by
  intro w inserted
  have hw : w.cache.Limited := limited_after (ShardedFrontierCache.limited_new maxBytes) acts
  refine ⟨?_, (hw.appendAtom w.now expr path expiresAt).within⟩
  exact ((hw.balanced.tick _).insertAtom _).loopEnds (Int.natCast_nonneg _)

end World

end Wavicle.Storage
