import Wavicle.Storage.ShardedSpec

/-! # Runs of the sharded cache

A `World` is the cache with the clock on the wall and the log of all atoms that were ever minted, a ghost. It is
there to say that no two atoms have the same hash, which is all that is assumed of SHA3-256:
`(w.log.map hash).Nodup`. -/

namespace Wavicle.Storage

open Lib Wavicle.Core ShardedFrontierCache

variable {ι H : Type} [DecidableEq H] [Hashing H]

/-- The cache at a time, with all atoms that were ever inserted. -/
structure World (ι H : Type) where
  cache : ShardedFrontierCache ι H
  now : Time
  log : List (CausalAtom ι H)

namespace World

/-- A new cache with the given memory limit, at the instant `now`. -/
def init (maxBytes : ℤ) (now : Time) : World ι H := ⟨.new maxBytes, now, []⟩

def mint (w : World ι H) (expr : Expr ι H) (path : Str) (expiresAt : Time) : CausalAtom ι H :=
  w.cache.mint w.now expr path expiresAt

def append (w : World ι H) (expr : Expr ι H) (path : Str) (expiresAt : Time) : H × World ι H :=
  let (hash, cache) := w.cache.appendAtom w.now expr path expiresAt
  (hash, ⟨cache, w.now, w.mint expr path expiresAt :: w.log⟩)

/-- The service behind a `StoreProg`: each call is made at the current instant. -/
def call (w : World ι H) (c : StoreCall ι H) : c.op.Res × World ι H :=
  match c with
  | ⟨_, .appendAtom expr path _ expiresAt⟩ =>
    let (hash, w') := w.append expr path expiresAt
    (.ok hash, w')
  | ⟨_, .getCurrent path⟩ =>
    let (atom, cache) := w.cache.getCurrent w.now path
    (atom, { w with cache := cache })
  | ⟨_, .getAtom hash⟩ => (w.cache.getAtom w.now hash, w)
  | ⟨_, .frontierPaths⟩ => (w.cache.frontierPaths w.now, w)
  | ⟨_, .verifyVersionVector entries⟩ => (w.cache.verifyVersionVector w.now entries, w)
  | ⟨_, .getCurrentHash path⟩ => (w.cache.getCurrentHash w.now path, w)
  | ⟨_, .findChangedPaths entries⟩ => (w.cache.findChangedPaths w.now entries, w)

/-- What `GetCurrent` answers for a path. -/
def current (w : World ι H) (path : Str) : Option (CausalAtom ι H) := w.cache.current w.now path

def view (w : World ι H) : View ι H := ⟨w.current, w.cache.getAtom w.now⟩

/-- A step of a cache under load. -/
inductive Step (w : World ι H) : World ι H → Prop where
  | call (c : StoreCall ι H) : Step w (w.call c).2
  | tick (t : Time) (h : w.now ≤ t) : Step w { w with now := t }
  | sweep : Step w { w with cache := w.cache.sweepExpired w.now }

/-- A state of a cache under any load. -/
def Reachable (w : World ι H) : Prop :=
  ∃ maxBytes now, Relation.ReflTransGen Step (init maxBytes now) w

theorem reachable_init (maxBytes : ℤ) (now : Time) : (init maxBytes now : World ι H).Reachable :=
  ⟨maxBytes, now, .refl⟩

variable {w : World ι H} {f : ShardedFrontierCache ι H}

theorem Reachable.step {w' : World ι H} (h : w.Reachable) (hstep : Step w w') : w'.Reachable := by
  obtain ⟨maxBytes, now, hrun⟩ := h
  exact ⟨maxBytes, now, hrun.tail hstep⟩

theorem Reachable.append (h : w.Reachable) (expr : Expr ι H) (path : Str) (expiresAt : Time) :
    (w.append expr path expiresAt).2.Reachable :=
  h.step (.call ⟨.given, .appendAtom expr path [] expiresAt⟩)

/-! ### The invariant -/

/-- Every entry is an atom of its path from the log, in its shard, and the hashes lead to the entries. -/
structure Exact (f : ShardedFrontierCache ι H) (log : List (CausalAtom ι H)) : Prop where
  owner : ∀ i p a, f.ent i p = some a → shardFor H p = i ∧ a.path = p
  logged : ∀ i p a, f.ent i p = some a → a ∈ log
  index : (log.map (·.hash)).Nodup →
    ∀ i h p, f.idx i h = some p ↔ ∃ a, f.ent i p = some a ∧ a.hash = h

/-- What holds in every reachable state. -/
structure Inv (w : World ι H) : Prop where
  exact : Exact w.cache w.log
  clock : ∀ a ∈ w.log, a.logicalClock ≤ w.cache.clock

theorem inv_init (maxBytes : ℤ) (now : Time) : Inv (init maxBytes now : World ι H) := by
  refine ⟨⟨fun i p a h => ?_, fun i p a h => ?_, fun _ i h p => ?_⟩, fun a h => ?_⟩
  · simp [init, new, ent] at h
  · simp [init, new, ent] at h
  · simp [init, new, ent, idx]
  · simp [init] at h

omit [DecidableEq H] [Hashing H] in
theorem eq_of_hash_eq {log : List (CausalAtom ι H)} (h : (log.map (·.hash)).Nodup)
    {a b : CausalAtom ι H} (ha : a ∈ log) (hb : b ∈ log) (hab : a.hash = b.hash) : a = b :=
  List.inj_on_of_nodup_map h ha hb hab

theorem Exact.removes {f' : ShardedFrontierCache ι H} {log : List (CausalAtom ι H)}
    (hf : Exact f log) (h : f.Removes f') : Exact f' log := by
  have hsub : ∀ i p a, f'.ent i p = some a → f.ent i p = some a := by
    intro i p a ha
    cases h with
    | nothing same => rwa [← same.ent_eq]
    | entry i₀ path atom _ ent_eq _ =>
      rw [ent_eq] at ha
      split_ifs at ha
      exact ha
  refine ⟨fun i p a ha => hf.owner i p a (hsub i p a ha),
    fun i p a ha => hf.logged i p a (hsub i p a ha), fun hnd i h' p => ?_⟩
  have hold := hf.index hnd
  cases h with
  | nothing same => rw [same.idx_eq, same.ent_eq, hold]
  | entry i₀ path atom present ent_eq idx_eq =>
    rw [idx_eq, ent_eq]
    constructor
    · intro h
      split_ifs at h with hi
      obtain ⟨a, ha, hah⟩ := (hold i h' p).1 h
      refine ⟨a, ?_, hah⟩
      rw [if_neg, ha]
      rintro ⟨rfl, rfl⟩
      rw [present] at ha
      obtain rfl := Option.some.inj ha
      exact hi ⟨rfl, hah.symm⟩
    · rintro ⟨a, ha, hah⟩
      split_ifs at ha with hp
      have hidx := (hold i h' p).2 ⟨a, ha, hah⟩
      rw [if_neg, hidx]
      rintro ⟨rfl, rfl⟩
      have hpath := (hold i atom.hash path).2 ⟨atom, present, rfl⟩
      rw [hidx] at hpath
      exact hp ⟨rfl, Option.some.inj hpath⟩

theorem Exact.shrinks {f' : ShardedFrontierCache ι H} {log : List (CausalAtom ι H)}
    (hf : Exact f log) (h : f.Shrinks f') : Exact f' log := by
  induction h with
  | refl => exact hf
  | tail _ hstep ih => exact ih.removes hstep

theorem Exact.puts {f' : ShardedFrontierCache ι H} {log : List (CausalAtom ι H)} (hf : Exact f log)
    {atom : CausalAtom ι H} (h : ShardedFrontierCache.Puts atom f f') : Exact f' (atom :: log) := by
  have hsub : ∀ i p a, f'.ent i p = some a →
      (i = shardFor H atom.path ∧ p = atom.path ∧ a = atom) ∨ f.ent i p = some a := by
    intro i p a ha
    rw [h.ent_eq] at ha
    split_ifs at ha with hp
    · exact Or.inl ⟨hp.1, hp.2, (Option.some.inj ha).symm⟩
    · exact Or.inr ha
  refine ⟨fun i p a ha => ?_, fun i p a ha => ?_, fun hnd i h' p => ?_⟩
  · rcases hsub i p a ha with ⟨rfl, rfl, rfl⟩ | ha
    · exact ⟨rfl, rfl⟩
    · exact hf.owner i p a ha
  · rcases hsub i p a ha with ⟨-, -, rfl⟩ | ha
    · exact List.mem_cons_self
    · exact List.mem_cons_of_mem _ (hf.logged i p a ha)
  · obtain ⟨hfresh, hnd⟩ := List.nodup_cons.1 hnd
    have hold := hf.index hnd
    have hnew : ∀ i p a, f.ent i p = some a → a.hash ≠ atom.hash := fun i p a ha heq =>
      hfresh (List.mem_map.2 ⟨a, hf.logged i p a ha, heq⟩)
    rw [h.idx_eq, h.ent_eq]
    by_cases hi : i = shardFor H atom.path
    · subst hi
      simp only [true_and]
      by_cases hh : h' = atom.hash
      · subst hh
        rw [if_pos rfl]
        constructor
        · intro hp
          obtain rfl := Option.some.inj hp
          exact ⟨atom, by simp, rfl⟩
        · rintro ⟨a, ha, hah⟩
          split_ifs at ha with hp
          · rw [hp]
          · exact absurd hah (hnew _ p a ha)
      · rw [if_neg hh]
        by_cases hres : (f.resident atom.path).map (·.hash) = some h'
        · -- the hash of the displaced atom: no other entry had it
          rw [if_pos hres]
          obtain ⟨old, hatold, rfl⟩ := Option.map_eq_some_iff.1 hres
          simp only [reduceCtorEq, false_iff, not_exists, not_and]
          intro a ha hah
          split_ifs at ha with hp
          · obtain rfl := Option.some.inj ha
            exact hh hah.symm
          · have h₁ := (hold _ _ p).2 ⟨a, ha, hah⟩
            have h₂ := (hold _ _ atom.path).2 ⟨old, hatold, rfl⟩
            rw [h₁] at h₂
            exact hp (Option.some.inj h₂)
        · rw [if_neg hres, hold]
          refine exists_congr fun a => and_congr_left fun hah => ?_
          split_ifs with hp
          · subst hp
            constructor
            · intro ha
              exact absurd (by rw [resident_eq_ent, ha, ← hah]; rfl) hres
            · intro ha
              obtain rfl := Option.some.inj ha
              exact absurd hah.symm hh
          · exact Iff.rfl
    · simp only [hi, false_and, if_false, hold]

theorem Exact.log {log : List (CausalAtom ι H)} (hf : Exact f log) (atom : CausalAtom ι H) :
    Exact f (atom :: log) where
  owner := hf.owner
  logged i p a ha := List.mem_cons_of_mem _ (hf.logged i p a ha)
  index hnd := hf.index (List.nodup_cons.1 hnd).2

theorem Inv.append (hw : w.Inv) (expr : Expr ι H) (path : Str) (expiresAt : Time) :
    Inv (w.append expr path expiresAt).2 := by
  refine ⟨?_, ?_⟩
  · have hins : Exact (w.cache.inserted w.now expr path expiresAt)
        (w.mint expr path expiresAt :: w.log) := by
      have htick : Exact { w.cache with clock := w.cache.clock + 1 } w.log :=
        ⟨hw.exact.owner, hw.exact.logged, hw.exact.index⟩
      rcases insertAtom_spec { w.cache with clock := w.cache.clock + 1 }
        (w.mint expr path expiresAt) with ⟨-, hput, -⟩ | ⟨-, hsame, -⟩
      · exact htick.puts hput
      · exact (htick.removes (.nothing hsame)).log _
    exact hins.shrinks (shrinks_appendAtom ..)
  · have hclock := clock_appendAtom w.cache w.now expr path expiresAt
    intro a ha
    change a.logicalClock ≤ (w.cache.appendAtom w.now expr path expiresAt).2.clock
    rw [hclock]
    rcases List.mem_cons.1 ha with rfl | ha
    · exact le_refl _
    · have := hw.clock a ha
      omega

theorem Inv.call (hw : w.Inv) : ∀ c : StoreCall ι H, Inv (w.call c).2
  | ⟨_, .appendAtom expr path _ expiresAt⟩ => hw.append expr path expiresAt
  | ⟨_, .getCurrent path⟩ => by
    refine ⟨hw.exact.removes (.nothing (same_getCurrent ..)), fun a ha => ?_⟩
    simp only [World.call, clock_getCurrent]
    exact hw.clock a ha
  | ⟨_, .getAtom _⟩ => hw
  | ⟨_, .frontierPaths⟩ => hw
  | ⟨_, .verifyVersionVector _⟩ => hw
  | ⟨_, .getCurrentHash _⟩ => hw
  | ⟨_, .findChangedPaths _⟩ => hw

theorem Inv.step {w' : World ι H} (hw : w.Inv) (h : Step w w') : w'.Inv := by
  cases h with
  | call c => exact hw.call c
  | tick t _ => exact ⟨hw.exact, hw.clock⟩
  | sweep => exact ⟨hw.exact.shrinks (shrinks_sweepExpired ..), hw.clock⟩

theorem Reachable.inv (h : Reachable w) : w.Inv := by
  obtain ⟨maxBytes, now, h⟩ := h
  induction h with
  | refl => exact inv_init maxBytes now
  | tail _ hstep ih => exact ih.step hstep

/-! ### The view -/

theorem matchesEntry_eq (w : World ι H) (e : Σ _ : Str, H) :
    w.cache.matchesEntry w.now e.1 e.2 = !w.view.changed e := by
  have h := matchesEntry_iff w.cache w.now e.1 e.2
  have hhash : w.view.currentHash e.1 = (w.cache.current w.now e.1).map (·.hash) := rfl
  rw [Bool.eq_iff_iff, h, View.changed, hhash]
  simp

theorem shows_view : Shows (World.call (ι := ι) (H := H)) (fun _ => True) World.view where
  answer
    | w, ⟨_, .getCurrent path⟩, _, _ => getCurrent_fst ..
    | w, ⟨_, .getAtom _⟩, _, _ => rfl
    | w, ⟨_, .verifyVersionVector entries⟩, _, _ => by
      simp only [World.call, verifyVersionVector, matchesEntry_eq, View.answer]
    | w, ⟨_, .getCurrentHash path⟩, _, _ => getCurrentHash_eq ..
    | w, ⟨_, .findChangedPaths entries⟩, _, _ => by
      simp only [World.call, findChangedPaths, matchesEntry_eq, View.answer,
        Bool.not_not]
  frame
    | w, ⟨_, .getCurrent path⟩, _, _ => by
      have h := same_getCurrent w.cache w.now path
      simp only [view, World.call, View.mk.injEq]
      exact ⟨funext fun p => congrFun (h.current w.now) p, h.getAtom w.now⟩
    | _, ⟨_, .getAtom _⟩, _, _ => rfl
    | _, ⟨_, .verifyVersionVector _⟩, _, _ => rfl
    | _, ⟨_, .getCurrentHash _⟩, _, _ => rfl
    | _, ⟨_, .findChangedPaths _⟩, _, _ => rfl
  keeps _ _ _ _ := trivial

omit [Hashing H] in
theorem atomIn_eq_some {now : Time} {i : Fin 32} {h : H} {r : Option (CausalAtom ι H)}
    (hr : atomIn (f.shards i) now h = some r) :
    ∃ p a, f.idx i h = some p ∧ f.ent i p = some a ∧ r = if a.expired now then none else some a := by
  unfold atomIn at hr
  split at hr
  · cases hr
  · rename_i p hp
    split at hr
    · cases hr
    · rename_i a ha
      exact ⟨p, a, hp, ha, (Option.some.inj hr).symm⟩

omit [Hashing H] in
theorem isSome_atomIn {now : Time} {i : Fin 32} {h : H} {p : Str} {a : CausalAtom ι H}
    (hp : f.idx i h = some p) (ha : f.ent i p = some a) :
    (atomIn (f.shards i) now h).isSome := by
  unfold atomIn
  rw [show (f.shards i).hashToPath.lookup h = some p from hp]
  simp only
  rw [show (f.shards i).entries.lookup p = some a from ha]
  rfl

theorem Inv.atom_eq_some (hw : w.Inv) (hd : (w.log.map (·.hash)).Nodup) {h : H} {b : CausalAtom ι H} :
    w.view.atom h = some b ↔ w.view.current b.path = some b ∧ b.hash = h := by
  -- what a shard finds is an entry with that hash
  have hfound : ∀ i r, atomIn (w.cache.shards i) w.now h = some r →
      ∃ a, a ∈ w.log ∧ a.hash = h ∧ w.cache.resident a.path = some a ∧
        r = if a.expired w.now then none else some a := by
    intro i r hr
    obtain ⟨p, a, hp, ha, hval⟩ := atomIn_eq_some hr
    obtain ⟨a', ha', hhash⟩ := (hw.exact.index hd i h p).1 hp
    obtain rfl := Option.some.inj (ha.symm.trans ha')
    obtain ⟨rfl, rfl⟩ := hw.exact.owner i p a ha
    exact ⟨a, hw.exact.logged _ _ _ ha, hhash, ha, hval⟩
  change ((List.finRange 32).findSome? fun i =>
    atomIn (w.cache.shards i) w.now h).join = some b ↔ _
  constructor
  · intro hb
    rw [Option.join_eq_some_iff] at hb
    obtain ⟨i, -, hi⟩ := List.exists_of_findSome?_eq_some hb
    obtain ⟨a, -, hhash, hres, hr⟩ := hfound i _ hi
    split_ifs at hr with hexp
    obtain rfl := Option.some.inj hr
    exact ⟨current_eq_some.2 ⟨hres, by simpa using hexp⟩, hhash⟩
  · rintro ⟨hcur, rfl⟩
    obtain ⟨hres, hlive⟩ := current_eq_some.1 hcur
    have hidx := (hw.exact.index hd _ b.hash b.path).2 ⟨b, hres, rfl⟩
    have hsome : ((List.finRange 32).findSome? fun i =>
        atomIn (w.cache.shards i) w.now b.hash).isSome := by
      rw [List.findSome?_isSome_iff]
      exact ⟨_, List.mem_finRange _, isSome_atomIn hidx hres⟩
    obtain ⟨r, hr⟩ := Option.isSome_iff_exists.1 hsome
    obtain ⟨i, -, hi⟩ := List.exists_of_findSome?_eq_some hr
    obtain ⟨a, hlog, hhash, -, rfl⟩ := hfound i r hi
    obtain rfl := eq_of_hash_eq hd hlog (hw.exact.logged _ _ _ hres) hhash
    rw [hr, if_neg (by simp [hlive])]
    rfl

end World

end Wavicle.Storage
