import Wavicle.Storage.MemoryCeiling
import Wavicle.Storage.Touch

/-! # What an append leaves in the cache

An append drops its atom if the resident one has the same content, and it may evict entries, also the one it has
just made. All of this is decided by the state before it. Here are the two questions that the handlers of commands
raise: what is resident under the path of the append (`resident_append_eq`, `current_append_eq`), and whether the
other paths keep what they hold (`resident_append_others_iff`). `World.Accepts` is the condition, on the state before
an append, that its path shows the new value after it. -/

namespace Wavicle.Storage

open Lib Wavicle.Core ShardedFrontierCache

variable {ι H : Type} [DecidableEq H] [Hashing H]

namespace World

section

variable (w : World ι H) (expr : Expr ι H) (path : Str) (expiresAt : Time)

/-- The atom is dropped: the resident one has the same content, and another hash. -/
def repeats : Bool :=
  (w.cache.resident path).any fun old => old.hash ≠ (w.mint expr path expiresAt).hash ∧
    sameAtomContent old (w.mint expr path expiresAt)

/-- The new entry is not evicted by its own append, which is the condition of `resident_append_iff`. -/
def retains : Bool :=
  (w.cache.inserted w.now expr path expiresAt).overCeiling = false ∨
    ∑ j, share (·.2) (estimateAtomBytes path (w.mint expr path expiresAt)) (shardFor H path)
      (w.cache.inserted w.now expr path expiresAt).queues j ≤
        (w.cache.inserted w.now expr path expiresAt).target

/-- No other entry is evicted: no eviction is due, or the new entry is alone in the first of the heaviest shards
and the target is met without it. -/
def SparesOthers : Prop :=
  (w.cache.inserted w.now expr path expiresAt).overCeiling = false ∨
    (w.cache.inserted w.now expr path expiresAt).currentBytes ≤
      (w.cache.inserted w.now expr path expiresAt).target ∨
    Heaviest (·.2) (w.cache.inserted w.now expr path expiresAt).queues (shardFor H path) ∧
      (w.cache.inserted w.now expr path expiresAt).queues (shardFor H path) =
        [(path, estimateAtomBytes path (w.mint expr path expiresAt))] ∧
      (w.cache.inserted w.now expr path expiresAt).currentBytes -
        estimateAtomBytes path (w.mint expr path expiresAt) ≤
          (w.cache.inserted w.now expr path expiresAt).target

end

variable {w : World ι H} {expr : Expr ι H} {path : Str} {expiresAt : Time}

theorem repeats_iff : w.repeats expr path expiresAt = true ↔ ∃ old, w.cache.resident path = some old ∧
    old.hash ≠ (w.mint expr path expiresAt).hash ∧
      sameAtomContent old (w.mint expr path expiresAt) = true := by
  unfold repeats
  simp only [Option.any_eq_true, decide_eq_true_eq]

theorem Inv.keeps_of_not_repeats (hw : w.Inv) (h : w.repeats expr path expiresAt = false) :
    ∀ old, w.cache.resident path = some old → keeps old (w.mint expr path expiresAt) = none := by
  intro old hold
  by_contra hkeeps
  have hsame := (hw.keeps_ne_none_iff hold expr expiresAt).1 hkeeps
  exact absurd (repeats_iff.2 ⟨old, hold, hsame⟩) (by rw [h]; exact Bool.false_ne_true)

/-- A dropped atom leaves all entries as they are. -/
theorem Inv.resident_append_of_repeats (hw : w.Inv) (h : w.repeats expr path expiresAt = true) :
    (w.append expr path expiresAt).2.cache.resident = w.cache.resident := by
  obtain ⟨old, hold, hsame⟩ := repeats_iff.1 h
  have hkeeps := (hw.keeps_ne_none_iff hold expr expiresAt).2 hsame
  rcases insertAtom_spec { w.cache with clock := w.cache.clock + 1 } (w.mint expr path expiresAt) with
    ⟨-, -, hnone⟩ | ⟨hflag, hsame, -⟩
  · exact absurd (hnone old hold) hkeeps
  · have hcache : (w.append expr path expiresAt).2.cache = w.cache.inserted w.now expr path expiresAt := by
      change (w.cache.appendAtom w.now expr path expiresAt).2 = _
      rw [appendAtom_eq, enforce, if_neg fun h => Bool.false_ne_true (hflag.symm.trans h.1)]
      rfl
    rw [hcache]
    exact hsame.resident

/-- **What is resident under the path of an append**: the old atom if the new one is dropped, and else the new one
if it is not evicted at once. -/
theorem Inv.resident_append_eq (hw : w.Inv) (hb : w.cache.Balanced) (expr : Expr ι H) (path : Str)
    (expiresAt : Time) :
    (w.append expr path expiresAt).2.cache.resident path =
      if w.repeats expr path expiresAt then w.cache.resident path
      else if w.retains expr path expiresAt then some (w.mint expr path expiresAt) else none := by
  cases hrep : w.repeats expr path expiresAt with
  | true => rw [if_pos rfl, hw.resident_append_of_repeats hrep]
  | false =>
    have hkeeps := hw.keeps_of_not_repeats hrep
    have hiff := hb.resident_appendAtom_iff w.now expr path expiresAt hkeeps
    have hretains : (w.append expr path expiresAt).2.cache.resident path ≠ none ↔
        w.retains expr path expiresAt = true := hiff.trans decide_eq_true_iff.symm
    rw [if_neg Bool.false_ne_true]
    cases hres : (w.append expr path expiresAt).2.cache.resident path with
    | none => rw [if_neg fun h => hretains.2 h hres]
    | some a =>
      have hins := resident_inserted hres
      rw [if_pos (hretains.1 (by rw [hres]; exact Option.some_ne_none a))]
      rcases insertAtom_spec { w.cache with clock := w.cache.clock + 1 } (w.mint expr path expiresAt) with
        ⟨-, hput, -⟩ | ⟨-, -, old, hold, hne⟩
      · exact hins.symm.trans ((congrFun hput.resident path).trans (Function.update_self ..))
      · exact absurd (hkeeps old hold) hne

/-- **What is current under the path of an append**: what was if the atom is dropped, and else the new atom, if it is
not evicted at once and has not expired. -/
theorem Inv.current_append_eq (hw : w.Inv) (hb : w.cache.Balanced) (expr : Expr ι H) (path : Str)
    (expiresAt : Time) : (w.append expr path expiresAt).2.current path =
      if w.repeats expr path expiresAt then w.current path
      else if w.retains expr path expiresAt ∧ (expiresAt = zeroTime ∨ w.now ≤ expiresAt) then
        some (w.mint expr path expiresAt)
      else none := by
  have hres := hw.resident_append_eq hb expr path expiresAt
  have hnow : (w.append expr path expiresAt).2.now = w.now := rfl
  unfold current
  rw [hnow]
  cases hrep : w.repeats expr path expiresAt with
  | true =>
    rw [hrep, if_pos rfl] at hres
    rw [if_pos rfl]
    exact congrArg (Option.bind · fun a => if a.expired w.now then none else some a) hres
  | false =>
    rw [hrep, if_neg Bool.false_ne_true] at hres
    rw [if_neg Bool.false_ne_true]
    refine Option.ext fun b => current_eq_some.trans ?_
    rw [hres, Option.ite_none_right_eq_some, Option.ite_none_right_eq_some, expired_eq_false_iff]
    constructor
    · rintro ⟨⟨hret, heq⟩, hlive⟩
      cases heq
      exact ⟨⟨hret, hlive⟩, rfl⟩
    · rintro ⟨⟨hret, hlive⟩, heq⟩
      cases heq
      exact ⟨⟨hret, rfl⟩, hlive⟩

/-! ### What a path shows after an append -/

/-- The books of the cache are kept, as they are in every state that it can reach. -/
structure Sound (w : World ι H) : Prop where
  inv : w.Inv
  limited : w.cache.Limited

theorem sound_init (maxBytes : ℤ) (now : Time) : (World.init maxBytes now : World ι H).Sound :=
  ⟨inv_init maxBytes now, limited_new maxBytes⟩

theorem Sound.act (h : w.Sound) (a : Act ι H) : (w.act a).Sound := ⟨h.inv.act a, limited_act h.limited a⟩

theorem Sound.append (h : w.Sound) (e : Expr ι H) (q : Str) (d : Time) : (w.append e q d).2.Sound :=
  h.act (.call ⟨.inner, .appendAtom e q [] d⟩)

theorem Sound.idle {w' : World ι H} (h : w.Sound) (hidle : Idle w w') : w'.Sound := by
  refine ⟨h.inv.step hidle.step, ?_⟩
  cases hidle with
  | read c _ => exact limited_act h.limited (.call c)
  | tick => exact h.limited
  | sweep => exact limited_act h.limited .sweep

/-- **The path takes in an expression** with a deadline, as far as `g` shows it: if the resident atom has the same
content, it shows the same already, and else the new entry is not evicted at once and the deadline has not passed. -/
def Accepts {β : Type} (g : Expr ι H → Option β) (w : World ι H) (e : Expr ι H) (p : Str) (d : Time) : Prop :=
  if w.repeats e p d then ((w.current p).bind fun a => g a.expr) = g e
  else w.retains e p d = true ∧ (d = zeroTime ∨ w.now ≤ d)

theorem Sound.accepts_iff {β : Type} {g : Expr ι H → Option β} (h : w.Sound) {e : Expr ι H} (hne : g e ≠ none)
    (p : Str) (d : Time) :
    (((w.append e p d).2.current p).bind fun a => g a.expr) = g e ↔ w.Accepts g e p d := by
  unfold Accepts
  rw [h.inv.current_append_eq h.limited.balanced]
  split_ifs with hrep hkept
  · rfl
  · exact iff_of_true rfl hkept
  · exact iff_of_false hne.symm hkept

/-- What is taken in is shown, also if it is nothing. -/
theorem Sound.shown_of_accepts {β : Type} {g : Expr ι H → Option β} (h : w.Sound) {e : Expr ι H} {p : Str}
    {d : Time} (htaken : w.Accepts g e p d) :
    (((w.append e p d).2.current p).bind fun a => g a.expr) = g e := by
  unfold Accepts at htaken
  rw [h.inv.current_append_eq h.limited.balanced]
  by_cases hrep : w.repeats e p d = true
  · rwa [if_pos hrep] at htaken ⊢
  · rw [if_neg hrep] at htaken ⊢
    rw [if_pos htaken]
    rfl

end World

/-! ### The other paths -/

namespace ShardedFrontierCache

variable {f : ShardedFrontierCache ι H}

omit [DecidableEq H] [Hashing H] in
theorem Balanced.queues_nodup (h : f.Balanced) (i : Fin 32) : (f.queues i).Nodup := by
  refine List.Nodup.of_map Prod.fst ?_
  have hpaths : (f.queues i).map Prod.fst = (f.shards i).lruPaths := by
    unfold queues FrontierShard.queue
    rw [List.map_map]
    exact List.map_id _
  rw [hpaths]
  exact (h.sound i).nodup_lruPaths

omit [DecidableEq H] [Hashing H] in
theorem mem_queues {i : Fin 32} {x : Str × ℤ} : x ∈ f.queues i ↔ x.1 ∈ (f.shards i).lruPaths ∧
    x.2 = ((f.shards i).entries.lookup x.1).elim 0 (estimateAtomBytes x.1) := by
  unfold queues FrontierShard.queue
  rw [List.mem_map]
  constructor
  · rintro ⟨p, hp, rfl⟩
    exact ⟨hp, rfl⟩
  · rintro ⟨hp, hsize⟩
    exact ⟨x.1, hp, Prod.ext rfl hsize.symm⟩

omit [DecidableEq H] in
/-- The entries of a cache are those of its queues. -/
theorem Balanced.exists_mem_queues (h : f.Balanced) {p : Str} :
    f.resident p ≠ none ↔ ∃ n, (p, n) ∈ f.queues (shardFor H p) := by
  rw [h.resident_ne_none]
  constructor
  · intro hp
    exact ⟨((f.shard p).entries.lookup p).elim 0 (estimateAtomBytes p), mem_queues.2 ⟨hp, rfl⟩⟩
  · rintro ⟨n, hn⟩
    exact (mem_queues.1 hn).1

/-- Every entry is in the shard of its path. -/
def Owned (f : ShardedFrontierCache ι H) : Prop := ∀ i p a, f.ent i p = some a → shardFor H p = i

omit [DecidableEq H] in
theorem Balanced.shardFor_of_mem (h : f.Balanced) (ho : f.Owned) {i : Fin 32} {x : Str × ℤ}
    (hx : x ∈ f.queues i) : shardFor H x.1 = i := by
  have hpresent := (h.sound i).mem_lruPaths_iff.1 (mem_queues.1 hx).1
  obtain ⟨a, ha⟩ := Option.ne_none_iff_exists'.1 hpresent
  exact ho i x.1 a ha

/-- What an eviction leaves of the paths other than the newest one of a shard. -/
theorem Balanced.evictToTarget_others_iff (h : f.Balanced) (ho : f.Owned) {target : ℤ} (htarget : 0 ≤ target)
    {path : Str} {n : ℤ} (hhead : (f.queues (shardFor H path)).head? = some (path, n)) :
    (∀ q, q ≠ path → (f.evictToTarget target).resident q = f.resident q) ↔
      f.currentBytes ≤ target ∨ Heaviest (·.2) f.queues (shardFor H path) ∧
        f.queues (shardFor H path) = [(path, n)] ∧ f.currentBytes - n ≤ target := by
  obtain ⟨hb, hrun, hend⟩ := h.evictToTarget target
  have hmem : (path, n) ∈ f.queues (shardFor H path) := List.mem_of_mem_head? hhead
  rw [← h.totalWeight, ← others_kept_iff hrun hend h.positive htarget h.queues_nodup hhead
    fun j hj => (h.shardFor_of_mem ho hj).symm]
  have hsub : ∀ j, (f.evictToTarget target).queues j ⊆ f.queues j :=
    fun j => (isPrefix_of_drops hrun j).subset
  constructor
  · intro hsame j x hx hne
    have hj := h.shardFor_of_mem ho hx
    subst hj
    have hpath : x.1 ≠ path := by
      intro heq
      refine hne (Prod.ext heq ?_)
      obtain ⟨p, m⟩ := x
      obtain rfl : p = path := heq
      exact (mem_queues.1 hx).2.trans (mem_queues.1 hmem).2.symm
    have hpresent : (f.evictToTarget target).resident x.1 ≠ none := by
      rw [hsame x.1 hpath]
      exact h.exists_mem_queues.2 ⟨x.2, hx⟩
    obtain ⟨m, hm⟩ := hb.exists_mem_queues.1 hpresent
    have hsize : m = x.2 := (mem_queues.1 (hsub _ hm)).2.trans (mem_queues.1 hx).2.symm
    rwa [hsize] at hm
  · intro hkept q hq
    rcases (shrinks_evictRounds target _ f).resident q with heq | hnone
    · exact heq
    · refine hnone.trans (Eq.symm (by_contra fun hne => ?_))
      obtain ⟨m, hm⟩ := h.exists_mem_queues.1 hne
      exact hb.exists_mem_queues.2 ⟨m, hkept _ _ hm fun h => hq (congrArg Prod.fst h)⟩ hnone

end ShardedFrontierCache

namespace World

variable {w : World ι H} {expr : Expr ι H} {path : Str} {expiresAt : Time}

/-- **What the other paths hold after an append**: the same as before exactly if the atom is dropped or no other
entry is evicted. -/
theorem Inv.resident_append_others_iff (hw : w.Inv) (hb : w.cache.Balanced) :
    (∀ q, q ≠ path → (w.append expr path expiresAt).2.cache.resident q = w.cache.resident q) ↔
      w.repeats expr path expiresAt = true ∨ w.SparesOthers expr path expiresAt := by
  cases hrep : w.repeats expr path expiresAt with
  | true => exact iff_of_true (fun q _ => congrFun (hw.resident_append_of_repeats hrep) q) (.inl rfl)
  | false =>
    have hinsert : w.cache.ticked.insertAtom (w.mint expr path expiresAt) = _ :=
      insertAtom_of_keeps_eq_none (hw.keeps_of_not_repeats hrep)
    have hins : w.cache.inserted w.now expr path expiresAt =
        w.cache.ticked.replace (w.mint expr path expiresAt) := congrArg (·.2.1) hinsert
    have hput := puts_replace w.cache.ticked (w.mint expr path expiresAt)
    have hothers : ∀ q, q ≠ path → (w.cache.inserted w.now expr path expiresAt).resident q =
        w.cache.resident q := by
      intro q hq
      rw [hins]
      exact (congrFun hput.resident q).trans (Function.update_of_ne hq _ _)
    have hcache : (w.append expr path expiresAt).2.cache =
        if (w.cache.inserted w.now expr path expiresAt).overCeiling then
          (w.cache.inserted w.now expr path expiresAt).evictToTarget
            (w.cache.inserted w.now expr path expiresAt).target
        else w.cache.inserted w.now expr path expiresAt := by
      change (w.cache.appendAtom w.now expr path expiresAt).2 = _
      have hmint : w.cache.mint w.now expr path expiresAt = w.mint expr path expiresAt := rfl
      rw [appendAtom_eq, enforce, hmint, hinsert, hins]
      simp only [true_and]
    rw [hcache, SparesOthers]
    simp only [Bool.false_eq_true, false_or]
    cases hover : (w.cache.inserted w.now expr path expiresAt).overCeiling with
    | false =>
      rw [if_neg Bool.false_ne_true]
      exact iff_of_true hothers (.inl rfl)
    | true =>
      have hbal : (w.cache.inserted w.now expr path expiresAt).Balanced := by
        rw [hins]
        exact (hb.tick _).replace _
      have howned : (w.cache.inserted w.now expr path expiresAt).Owned := by
        intro i p a ha
        rw [hins, hput.ent_eq] at ha
        split_ifs at ha with hp
        · rw [hp.1, hp.2]
        · exact (hw.exact.owner i p a ha).1
      have hhead : ((w.cache.inserted w.now expr path expiresAt).queues (shardFor H path)).head? =
          some (path, estimateAtomBytes path (w.mint expr path expiresAt)) := by
        rw [hins]
        exact head_queues_replace _ (w.mint expr path expiresAt)
      simp only [if_true, Bool.true_eq_false, false_or]
      have htarget : 0 ≤ (w.cache.inserted w.now expr path expiresAt).target := Int.natCast_nonneg _
      refine Iff.trans ?_ (hbal.evictToTarget_others_iff howned htarget hhead)
      exact forall₂_congr fun q hq => by rw [hothers q hq]

end World

/-! ### Changes in place

A change of an object leaves the entries, their order and their estimated sizes as they are. -/

section Changes

variable {f : ShardedFrontierCache Ref H} (c : Change)

section

omit [DecidableEq H] [Hashing H]

theorem estimateAtomBytes_change (path : Str) (a : CausalAtom Ref H) :
    estimateAtomBytes path (a.change c) = estimateAtomBytes path a := by
  obtain ⟨hash, expr, p, parents, clock, timestamp, expiresAt⟩ := a
  cases expr with
  | eConst v => cases v <;> rfl
  | _ => rfl

theorem FrontierShard.Sound.change {s : FrontierShard Ref H} (h : s.Sound) : (s.change c).Sound := by
  refine ⟨⟨h.wf, h.nodes⟩, fun p => ?_, h.bytes_eq.trans ?_⟩
  · change (s.entries.mapValues (CausalAtom.change c)).lookup p = none ↔ s.lruNodes.lookup p = none
    rw [GoMap.lookup_mapValues, Option.map_eq_none_iff, h.same p]
  · change (s.entries.entries.map fun e => estimateAtomBytes e.1 e.2).sum =
      ((s.entries.entries.map fun e => (⟨e.1, e.2.change c⟩ : Σ _ : Str, CausalAtom Ref H)).map
        fun e => estimateAtomBytes e.1 e.2).sum
    rw [List.map_map]
    refine congrArg List.sum (List.map_congr_left fun e _ => ?_)
    exact (estimateAtomBytes_change c e.1 e.2).symm

theorem ShardedFrontierCache.Limited.change (h : f.Limited) : (f.change c).Limited :=
  ⟨⟨fun i => (h.balanced.sound i).change c, h.balanced.currentBytes_eq⟩, h.limited, h.within⟩

end

end Changes

end Wavicle.Storage
