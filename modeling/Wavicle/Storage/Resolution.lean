import Wavicle.Storage.CrystalSpec

/-! # Does every hash of the frontier resolve?

`AppendAtom` sets the frontier before it stores the atom in the cache, and two loops delete atoms from the cache
meanwhile. -/

namespace Wavicle.Storage

open Lib Wavicle.Core Function CausalCrystal

/-- How far a call of `AppendAtom` has come. -/
inductive Phase (H : Type) where
  | begun
  | logged
  | indexed
  | stored
  /-- in `evictIfNeeded` -/
  | counting
  /-- the paths of the frontier that are still to be looked at, the hashes so far, and how many atoms may be
  evicted -/
  | looking (paths : List Str) (seen : List H) (budget : ℕ)
  | ranging (seen : List H) (budget : ℕ)
  | checking (seen : List H) (budget : ℕ) (hash : H) (path : Str)
  | dropping (seen : List H) (budget : ℕ) (hash : H)
  | returned
  | failed

namespace Phase

variable {H : Type}

def ended : Phase H → Bool
  | .returned | .failed => true
  | _ => false

def published : Phase H → Bool
  | .begun | .logged | .indexed | .failed => false
  | _ => true

def shown : Phase H → Bool
  | .begun | .logged | .failed => false
  | _ => true

def checks : Phase H → Option (H × Str)
  | .checking _ _ hash path => some (hash, path)
  | _ => none

def drops : Phase H → Option H
  | .dropping _ _ hash => some hash
  | _ => none

theorem shown_of_published {ph : Phase H} (h : ph.published = true) : ph.shown = true := by
  cases ph <;> first | rfl | cases h

theorem published_of_ended {ph : Phase H} (hs : ph.shown = true) (he : ph.ended = true) :
    ph.published = true := by
  cases ph <;> simp_all [shown, ended, published]

end Phase

/-- How far the last step of `Compact` has come. -/
inductive Sweep (H : Type) where
  | idle
  | looking (paths : List Str) (seen : List H)
  | ranging (seen : List H)
  | dropping (seen : List H) (hash : H)
  deriving DecidableEq

/-- A crystal, the atoms of the calls of `AppendAtom` so far and how far they have come, and the compaction. -/
structure Sweeping (ι H : Type) where
  crystal : CausalCrystal ι H
  atoms : List (CausalAtom ι H)
  phase : ℕ → Phase H
  sweep : Sweep H

/-- A step of one of the calls in progress. -/
inductive SubStep (ι H : Type) where
  | begin (expr : Expr ι H) (path : Str) (causalPast : List H) (expiresAt now : Time) (draw : Draw H)
  /-- `c.wal.Append(atom)`; the file may fail -/
  | log (i : ℕ) (fileError : Option Str)
  /-- `c.frontier.Set(path, atom.Hash)` -/
  | index (i : ℕ)
  | store (i : ℕ)
  /-- `if c.atomCount.Load() > maxAtomCacheEntries` -/
  | decide (i : ℕ)
  /-- the beginning of `evictIfNeeded` -/
  | count (i : ℕ)
  /-- `c.frontier.Get(p)` for the next path -/
  | look (i : ℕ)
  /-- `c.atomCache.Range` comes to a hash -/
  | visit (i : ℕ) (hash : H)
  /-- `c.frontier.Get(atom.Path)` -/
  | again (i : ℕ)
  /-- `c.atomCache.Delete(k)` -/
  | drop (i : ℕ)
  | finish (i : ℕ)
  /-- the beginning of the last step of `Compact`; the ones before only read the crystal -/
  | sweepStart
  | sweepLook
  | sweepVisit (hash : H)
  | sweepDrop
  | sweepEnd

namespace Sweeping

variable {ι H : Type} [DecidableEq H] [Hashing H]

/-- `NewCausalCrystal` over a log with the given atoms. -/
def start (atoms : List (CausalAtom ι H)) : Sweeping ι H := ⟨.recover atoms, atoms, fun _ => .returned, .idle⟩

variable (x : Sweeping ι H)

def move (i : ℕ) (phase : Phase H) : Sweeping ι H :=
  { x with phase := update x.phase i phase }

/-- One step; one that is not the next of its call or of the compaction does nothing. -/
def step : SubStep ι H → Sweeping ι H
  | .begin expr path causalPast expiresAt now draw =>
    { x with
      crystal := { x.crystal with clock := x.crystal.clock + 1 }
      atoms := x.atoms ++ [x.crystal.mint now draw expr path causalPast expiresAt]
      phase := update x.phase x.atoms.length .begun }
  | .log i fileError =>
    match x.phase i with
    | .begun => x.move i (if fileError = none then .logged else .failed)
    | _ => x
  | .index i =>
    match x.phase i, x.atoms[i]? with
    | .logged, some atom => { x with
        crystal := { x.crystal with frontier := x.crystal.frontier.insert atom.path atom.hash } }.move i .indexed
    | _, _ => x
  | .store i =>
    match x.phase i, x.atoms[i]? with
    | .indexed, some atom => { x with
        crystal := { x.crystal with
          atomCache := x.crystal.atomCache.insert atom.hash atom
          atomCount := x.crystal.atomCount + 1 } }.move i .stored
    | _, _ => x
  | .decide i =>
    match x.phase i with
    | .stored => x.move i (if x.crystal.atomCount > maxAtomCacheEntries then .counting else .returned)
    | _ => x
  | .count i =>
    match x.phase i with
    | .counting => x.move i (if x.crystal.atomCount < maxAtomCacheEntries then .returned
        else .looking x.crystal.frontier.keys [] (Binary64.tenPercentTrunc x.crystal.atomCount.toNat))
    | _ => x
  | .look i =>
    match x.phase i with
    | .looking (path :: paths) seen budget =>
      x.move i (.looking paths (seen ++ (x.crystal.frontier.lookup path).toList) budget)
    | .looking [] seen budget => x.move i (.ranging seen budget)
    | _ => x
  | .visit i hash =>
    match x.phase i, x.crystal.atomCache.lookup hash with
    | .ranging seen (budget + 1), some atom =>
      if hash ∈ seen then x else x.move i (.checking seen (budget + 1) hash atom.path)
    | _, _ => x
  | .again i =>
    match x.phase i with
    | .checking seen budget hash path =>
      x.move i (if x.crystal.frontier.lookup path = some hash then .ranging seen budget
        else .dropping seen budget hash)
    | _ => x
  | .drop i =>
    match x.phase i with
    | .dropping seen budget hash =>
      { x with crystal := x.crystal.drop hash }.move i (.ranging seen (budget - 1))
    | _ => x
  | .finish i =>
    match x.phase i with
    | .ranging _ _ => x.move i .returned
    | _ => x
  | .sweepStart =>
    match x.sweep with
    | .idle => { x with sweep := .looking x.crystal.frontier.keys [] }
    | _ => x
  | .sweepLook =>
    match x.sweep with
    | .looking (path :: paths) seen =>
      { x with sweep := .looking paths (seen ++ (x.crystal.frontier.lookup path).toList) }
    | .looking [] seen => { x with sweep := .ranging seen }
    | _ => x
  | .sweepVisit hash =>
    match x.sweep, x.crystal.atomCache.lookup hash with
    | .ranging seen, some _ => if hash ∈ seen then x else { x with sweep := .dropping seen hash }
    | _, _ => x
  | .sweepDrop =>
    match x.sweep with
    | .dropping seen hash => { x with crystal := x.crystal.drop hash, sweep := .ranging seen }
    | _ => x
  | .sweepEnd =>
    match x.sweep with
    | .ranging _ => { x with sweep := .idle }
    | _ => x

def run (actions : List (SubStep ι H)) : Sweeping ι H := actions.foldl step x

/-- All calls have returned. -/
def Quiet : Prop := ∀ i < x.atoms.length, (x.phase i).ended = true

/-- Every hash of the frontier is in the cache, and every path that was written has a current atom. -/
def Resolves : Prop :=
  (∀ path hash, x.crystal.frontier.lookup path = some hash → x.crystal.atomCache.lookup hash ≠ none) ∧
    ∀ i atom, x.atoms[i]? = some atom → (x.phase i).shown = true →
      x.crystal.getCurrent atom.path ≠ none

/-- `Compact` does not delete an atom that is on the frontier. -/
def Careful : SubStep ι H → Prop
  | .sweepDrop => ∀ seen hash, x.sweep = .dropping seen hash →
      ∀ path, x.crystal.frontier.lookup path ≠ some hash
  | _ => True

def CarefulRun : Sweeping ι H → List (SubStep ι H) → Prop
  | _, [] => True
  | x, action :: actions => Careful x action ∧ CarefulRun (x.step action) actions

/-- No two atoms have the same hash. -/
def Distinct : Prop := (x.atoms.map (·.hash)).Nodup

/-! ### The invariant -/

/-- What holds in a careful run, of the frontier, the cache, the atoms and the phases. -/
structure Inv (frontier : GoMap Str H) (cache : GoMap H (CausalAtom ι H)) (atoms : List (CausalAtom ι H))
    (phase : ℕ → Phase H) : Prop where
  shown : ∀ path hash, frontier.lookup path = some hash →
    ∃ i atom, atoms[i]? = some atom ∧ atom.path = path ∧ atom.hash = hash ∧ (phase i).shown = true
  cached : ∀ hash atom, cache.lookup hash = some atom →
    atom.hash = hash ∧ ∃ i, atoms[i]? = some atom ∧ (phase i).published = true
  present : ∀ i atom, atoms[i]? = some atom → (phase i).published = true →
    frontier.lookup atom.path = some atom.hash → cache.lookup atom.hash ≠ none
  paths : ∀ i atom, atoms[i]? = some atom → (phase i).shown = true → frontier.lookup atom.path ≠ none
  /-- the atom that `evictIfNeeded` is at has been on the frontier -/
  checks : ∀ j hash path, (phase j).checks = some (hash, path) →
    ∃ i atom, atoms[i]? = some atom ∧ atom.path = path ∧ atom.hash = hash ∧ (phase i).published = true
  drops : ∀ j hash, (phase j).drops = some hash →
    ∃ i atom, atoms[i]? = some atom ∧ atom.hash = hash ∧ (phase i).published = true ∧
      frontier.lookup atom.path ≠ some hash

section

variable {frontier : GoMap Str H} {cache : GoMap H (CausalAtom ι H)} {atoms : List (CausalAtom ι H)}
  {phase : ℕ → Phase H} {i : ℕ} {atom : CausalAtom ι H}

omit [DecidableEq H] [Hashing H] in
theorem call_unique (hd : (atoms.map (·.hash)).Nodup) {i j : ℕ} {a b : CausalAtom ι H}
    (hi : atoms[i]? = some a) (hj : atoms[j]? = some b) (hhash : a.hash = b.hash) : i = j := by
  refine (List.getElem?_inj ?_ hd).1 ?_
  · rw [List.length_map]
    exact (List.getElem?_eq_some_iff.1 hi).1
  · rw [List.getElem?_map, List.getElem?_map, hi, hj, Option.map_some, Option.map_some, hhash]

omit [Hashing H] in
theorem Inv.off_frontier (h : Inv frontier cache atoms phase) (hd : (atoms.map (·.hash)).Nodup)
    (hi : atoms[i]? = some atom) (hoff : frontier.lookup atom.path ≠ some atom.hash) (path : Str) :
    frontier.lookup path ≠ some atom.hash := by
  intro hpath
  obtain ⟨j, b, hj, rfl, hhash, -⟩ := h.shown path atom.hash hpath
  obtain rfl := call_unique hd hj hi hhash
  obtain rfl := Option.some.inj (hj.symm.trans hi)
  exact hoff hpath

omit [DecidableEq H] [Hashing H] in
theorem apply_update {β : Type} {f : Phase H → β} {ph next : Phase H} (hphase : phase i = ph)
    (hf : f next = f ph) (j : ℕ) : f (update phase i next j) = f (phase j) := by
  rw [update_apply]
  split_ifs with hj
  · rw [hf, hj, hphase]
  · rfl

section

omit [Hashing H]

theorem Inv.move (h : Inv frontier cache atoms phase) {ph next : Phase H} (hphase : phase i = ph)
    (hshown : next.shown = ph.shown) (hpublished : next.published = ph.published)
    (hchecks : ∀ hash path, next.checks = some (hash, path) →
      ∃ j atom, atoms[j]? = some atom ∧ atom.path = path ∧ atom.hash = hash ∧ (phase j).published = true)
    (hdrops : ∀ hash, next.drops = some hash →
      ∃ j atom, atoms[j]? = some atom ∧ atom.hash = hash ∧ (phase j).published = true ∧
        frontier.lookup atom.path ≠ some hash) :
    Inv frontier cache atoms (update phase i next) := by
  have hs := apply_update hphase hshown
  have hp := apply_update hphase hpublished
  refine ⟨?_, ?_, ?_, ?_, fun j hash path hj => ?_, fun j hash hj => ?_⟩
  · simpa only [hs] using h.shown
  · simpa only [hp] using h.cached
  · simpa only [hp] using h.present
  · simpa only [hs] using h.paths
  · simp only [hp]
    rw [update_apply] at hj
    split_ifs at hj
    · exact hchecks hash path hj
    · exact h.checks j hash path hj
  · simp only [hp]
    rw [update_apply] at hj
    split_ifs at hj
    · exact hdrops hash hj
    · exact h.drops j hash hj

theorem Inv.pass (h : Inv frontier cache atoms phase) {ph next : Phase H} (hphase : phase i = ph)
    (hshown : next.shown = ph.shown) (hpublished : next.published = ph.published)
    (hchecks : next.checks = none) (hdrops : next.drops = none) :
    Inv frontier cache atoms (update phase i next) :=
  h.move hphase hshown hpublished (fun _ _ hnext => absurd (hchecks.symm.trans hnext) (by simp))
    fun _ hnext => absurd (hdrops.symm.trans hnext) (by simp)

theorem Inv.erase (h : Inv frontier cache atoms phase) {hash : H}
    (hoff : ∀ path, frontier.lookup path ≠ some hash) : Inv frontier (cache.erase hash) atoms phase where
  shown := h.shown
  cached hash' atom hatom := by
    rw [GoMap.lookup_erase] at hatom
    split_ifs at hatom
    exact h.cached hash' atom hatom
  present i atom hi hpub hpath := by
    have hne : atom.hash ≠ hash := fun heq => hoff atom.path (heq ▸ hpath)
    rw [GoMap.lookup_erase, if_neg hne]
    exact h.present i atom hi hpub hpath
  paths := h.paths
  checks := h.checks
  drops := h.drops

theorem Inv.begin (h : Inv frontier cache atoms phase) (atom : CausalAtom ι H) :
    Inv frontier cache (atoms ++ [atom]) (update phase atoms.length .begun) := by
  -- the calls that were there before are what they were
  have hold : ∀ {i a}, atoms[i]? = some a → (atoms ++ [atom])[i]? = some a ∧
      update phase atoms.length .begun i = phase i := by
    intro i a hi
    obtain ⟨hlt, -⟩ := List.getElem?_eq_some_iff.1 hi
    exact ⟨by rw [List.getElem?_append_left hlt, hi], update_of_ne hlt.ne _ _⟩
  have hnew : ∀ {i a}, (atoms ++ [atom])[i]? = some a →
      (update phase atoms.length .begun i).shown = true →
        atoms[i]? = some a ∧ update phase atoms.length .begun i = phase i := by
    intro i a hi hshown
    rcases lt_trichotomy i atoms.length with hlt | rfl | hgt
    · exact ⟨by rwa [List.getElem?_append_left hlt] at hi, update_of_ne hlt.ne _ _⟩
    · rw [update_self] at hshown
      cases hshown
    · rw [List.getElem?_eq_none (by rw [List.length_append, List.length_singleton]; omega)] at hi
      cases hi
  refine ⟨fun path hash hpath => ?_, fun hash a ha => ?_, fun i a hi hpub hpath => ?_,
    fun i a hi hshown => ?_, fun j hash path hj => ?_, fun j hash hj => ?_⟩
  · obtain ⟨i, a, hi, hrest⟩ := h.shown path hash hpath
    exact ⟨i, a, (hold hi).1, by rwa [(hold hi).2]⟩
  · obtain ⟨hhash, i, hi, hpub⟩ := h.cached hash a ha
    exact ⟨hhash, i, (hold hi).1, by rwa [(hold hi).2]⟩
  · obtain ⟨hi, hsame⟩ := hnew hi (Phase.shown_of_published hpub)
    rw [hsame] at hpub
    exact h.present i a hi hpub hpath
  · obtain ⟨hi, hsame⟩ := hnew hi hshown
    rw [hsame] at hshown
    exact h.paths i a hi hshown
  · rw [update_apply] at hj
    split_ifs at hj
    · cases hj
    · obtain ⟨i, a, hi, hrest⟩ := h.checks j hash path hj
      exact ⟨i, a, (hold hi).1, by rwa [(hold hi).2]⟩
  · rw [update_apply] at hj
    split_ifs at hj
    · cases hj
    · obtain ⟨i, a, hi, hrest⟩ := h.drops j hash hj
      exact ⟨i, a, (hold hi).1, by rwa [(hold hi).2]⟩

theorem Inv.index (h : Inv frontier cache atoms phase) (hd : (atoms.map (·.hash)).Nodup)
    (hi : atoms[i]? = some atom) (hphase : phase i = .logged) :
    Inv (frontier.insert atom.path atom.hash) cache atoms (update phase i .indexed) := by
  -- the other calls are what they were, and have other atoms
  have hother : ∀ {j}, (phase j).shown = true → j ≠ i := by
    rintro j hj rfl
    rw [hphase] at hj
    cases hj
  have hpub := apply_update hphase (rfl : Phase.published .indexed = _)
  have hhash : ∀ {j a}, atoms[j]? = some a → (phase j).published = true → a.hash ≠ atom.hash :=
    fun hj hjpub heq => hother (Phase.shown_of_published hjpub) (call_unique hd hj hi heq)
  refine ⟨fun path hash hpath => ?_, ?_, fun j a hj hjpub hpath => ?_, fun j a hj hshown => ?_,
    fun j hash path hj => ?_, fun j hash hj => ?_⟩
  · rw [GoMap.lookup_insert] at hpath
    split_ifs at hpath with heq
    · exact ⟨i, atom, hi, heq.symm, Option.some.inj hpath, by rw [update_self]; rfl⟩
    · obtain ⟨j, a, hj, hpa, hha, hshown⟩ := h.shown path hash hpath
      exact ⟨j, a, hj, hpa, hha, by rwa [update_of_ne (hother hshown)]⟩
  · simpa only [hpub] using h.cached
  · rw [hpub] at hjpub
    rw [GoMap.lookup_insert] at hpath
    split_ifs at hpath
    · exact absurd (Option.some.inj hpath).symm (hhash hj hjpub)
    · exact h.present j a hj hjpub hpath
  · rw [GoMap.lookup_insert]
    split_ifs with heq
    · simp
    · refine h.paths j a hj ?_
      have hne : j ≠ i := by
        rintro rfl
        exact heq (congrArg _ (Option.some.inj (hj.symm.trans hi)))
      rwa [update_of_ne hne] at hshown
  · simp only [hpub]
    rw [update_apply] at hj
    split_ifs at hj
    · cases hj
    · exact h.checks j hash path hj
  · simp only [hpub]
    rw [update_apply] at hj
    split_ifs at hj
    · cases hj
    · obtain ⟨k, a, hk, rfl, hkpub, hoff⟩ := h.drops j hash hj
      refine ⟨k, a, hk, rfl, hkpub, ?_⟩
      rw [GoMap.lookup_insert]
      split_ifs
      · exact fun heq => hhash hk hkpub (Option.some.inj heq).symm
      · exact hoff

theorem Inv.store (h : Inv frontier cache atoms phase) (hi : atoms[i]? = some atom)
    (hphase : phase i = .indexed) :
    Inv frontier (cache.insert atom.hash atom) atoms (update phase i .stored) := by
  have hshown := apply_update hphase (rfl : Phase.shown .stored = _)
  have hpub : ∀ {j}, (phase j).published = true → (update phase i .stored j).published = true := by
    intro j hj
    rw [update_apply]
    split_ifs
    · rfl
    · exact hj
  refine ⟨?_, fun hash a ha => ?_, fun j a hj hjpub hpath => ?_, ?_, fun j hash path hj => ?_,
    fun j hash hj => ?_⟩
  · simpa only [hshown] using h.shown
  · rw [GoMap.lookup_insert] at ha
    split_ifs at ha with heq
    · obtain rfl := Option.some.inj ha
      exact ⟨heq.symm, i, hi, by rw [update_self]; rfl⟩
    · obtain ⟨hhash, j, hj, hjpub⟩ := h.cached hash a ha
      exact ⟨hhash, j, hj, hpub hjpub⟩
  · rw [GoMap.lookup_insert]
    split_ifs with heq
    · simp
    · refine h.present j a hj ?_ hpath
      have hne : j ≠ i := by
        rintro rfl
        exact heq (congrArg _ (Option.some.inj (hj.symm.trans hi)))
      rwa [update_of_ne hne] at hjpub
  · simpa only [hshown] using h.paths
  · rw [update_apply] at hj
    split_ifs at hj
    · cases hj
    · obtain ⟨k, a, hk, hpa, hha, hkpub⟩ := h.checks j hash path hj
      exact ⟨k, a, hk, hpa, hha, hpub hkpub⟩
  · rw [update_apply] at hj
    split_ifs at hj
    · cases hj
    · obtain ⟨k, a, hk, hha, hkpub, hoff⟩ := h.drops j hash hj
      exact ⟨k, a, hk, hha, hpub hkpub, hoff⟩

end

end

/-! ### Runs -/

variable {x : Sweeping ι H}

def Ok (x : Sweeping ι H) : Prop := Inv x.crystal.frontier x.crystal.atomCache x.atoms x.phase

omit [Hashing H] in
theorem Ok.resolves (hx : x.Ok) (hquiet : x.Quiet) : x.Resolves := by
  have hall : ∀ path hash, x.crystal.frontier.lookup path = some hash →
      x.crystal.atomCache.lookup hash ≠ none := by
    intro path hash hpath
    obtain ⟨i, atom, hi, rfl, rfl, hshown⟩ := hx.shown path hash hpath
    have hended := hquiet i (List.getElem?_eq_some_iff.1 hi).1
    exact hx.present i atom hi (Phase.published_of_ended hshown hended) hpath
  refine ⟨hall, fun i atom hi hshown => ?_⟩
  obtain ⟨hash, hhash⟩ := Option.ne_none_iff_exists'.1 (hx.paths i atom hi hshown)
  rw [getCurrent, hhash]
  exact hall atom.path hash hhash

omit [Hashing H] in
theorem ok_start (atoms : List (CausalAtom ι H)) : (start atoms).Ok := by
  have hfrontier : ∀ path hash, (recover atoms).frontier.lookup path = some hash →
      ∃ atom ∈ atoms, atom.path = path ∧ atom.hash = hash := by
    induction atoms using List.reverseRecOn with
    | nil => intro path hash h; simp [recover] at h
    | append_singleton atoms atom ih =>
      intro path hash h
      rw [recover, List.foldl_append] at h
      dsimp only [List.foldl_cons, List.foldl_nil] at h
      rw [GoMap.lookup_insert] at h
      split_ifs at h with heq
      · exact ⟨atom, by simp, heq.symm, Option.some.inj h⟩
      · obtain ⟨a, ha, hrest⟩ := ih path hash h
        exact ⟨a, List.mem_append_left _ ha, hrest⟩
  have hpaths : ∀ atom ∈ atoms, (recover atoms).frontier.lookup atom.path ≠ none := by
    clear hfrontier
    induction atoms using List.reverseRecOn with
    | nil => simp
    | append_singleton atoms atom ih =>
      intro a ha
      rw [recover, List.foldl_append]
      dsimp only [List.foldl_cons, List.foldl_nil]
      rw [GoMap.lookup_insert]
      split_ifs with heq
      · simp
      · refine ih a ((List.mem_append.1 ha).resolve_right fun hlast => heq ?_)
        rw [List.mem_singleton.1 hlast]
  have hexact := exact_recover atoms
  refine ⟨fun path hash hpath => ?_, fun hash atom ha => ?_, fun i atom hi _ hpath => ?_,
    fun i atom hi _ => hpaths atom (List.mem_of_getElem? hi), fun j hash path hj => ?_,
    fun j hash hj => ?_⟩
  · obtain ⟨atom, ha, hpa, hha⟩ := hfrontier path hash hpath
    obtain ⟨i, hi⟩ := List.mem_iff_getElem?.1 ha
    exact ⟨i, atom, hi, hpa, hha, rfl⟩
  · obtain ⟨hhash, hmem⟩ := hexact.cached hash atom ha
    obtain ⟨i, hi⟩ := List.mem_iff_getElem?.1 (List.mem_reverse.1 hmem)
    exact ⟨hhash, i, hi, rfl⟩
  · obtain ⟨a, ha⟩ := hexact.resolves atom.path atom.hash hpath
    change (recover atoms).atomCache.lookup atom.hash ≠ none
    rw [ha]
    simp
  · cases hj
  · cases hj

theorem Ok.step (hx : x.Ok) (hd : x.Distinct) {action : SubStep ι H} (hcare : x.Careful action) :
    (x.step action).Ok := by
  cases action with
  | begin expr path causalPast expiresAt now draw => exact Inv.begin hx _
  | index i =>
    unfold Sweeping.step
    dsimp only
    split
    · rename_i hphase hi
      exact Inv.index hx hd hi hphase
    · exact hx
  | store i =>
    unfold Sweeping.step
    dsimp only
    split
    · rename_i hphase hi
      exact Inv.store hx hi hphase
    · exact hx
  | log i | decide i | count i =>
    unfold Sweeping.step
    dsimp only
    split
    · rename_i hphase
      split_ifs
      · exact Inv.pass hx hphase rfl rfl rfl rfl
      · exact Inv.pass hx hphase rfl rfl rfl rfl
    · exact hx
  | look i =>
    unfold Sweeping.step
    dsimp only
    split
    · rename_i hphase
      exact Inv.pass hx hphase rfl rfl rfl rfl
    · rename_i hphase
      exact Inv.pass hx hphase rfl rfl rfl rfl
    · exact hx
  | visit i hash =>
    unfold Sweeping.step
    dsimp only
    split
    · rename_i atom hphase hatom
      split_ifs
      · exact hx
      · refine Inv.move hx hphase rfl rfl (fun hash' path h => ?_)
          fun hash' h => absurd h (by simp [Phase.drops])
        -- what is in the cache has been on the frontier
        obtain ⟨rfl, rfl⟩ := Prod.mk.inj (Option.some.inj h)
        obtain ⟨hhash, j, hj, hpub⟩ := hx.cached hash atom hatom
        exact ⟨j, atom, hj, rfl, hhash, hpub⟩
    · exact hx
  | again i =>
    unfold Sweeping.step
    dsimp only
    split
    · rename_i seen budget hash path hphase
      split_ifs with hfrontier
      · exact Inv.pass hx hphase rfl rfl rfl rfl
      · refine Inv.move hx hphase rfl rfl
          (fun hash' path h => absurd h (by simp [Phase.checks])) fun hash' h => ?_
        obtain rfl := Option.some.inj h
        obtain ⟨j, atom, hj, rfl, rfl, hpub⟩ := hx.checks i hash path (by rw [hphase]; rfl)
        exact ⟨j, atom, hj, rfl, hpub, hfrontier⟩
    · exact hx
  | drop i =>
    unfold Sweeping.step
    dsimp only
    split
    · rename_i seen budget hash hphase
      obtain ⟨j, atom, hj, rfl, -, hoff⟩ := hx.drops i hash (by rw [hphase]; rfl)
      exact Inv.pass (Inv.erase hx (hx.off_frontier hd hj hoff)) hphase rfl rfl rfl rfl
    · exact hx
  | finish i =>
    unfold Sweeping.step
    dsimp only
    split
    · rename_i hphase
      exact Inv.pass hx hphase rfl rfl rfl rfl
    · exact hx
  | sweepDrop =>
    unfold Sweeping.step
    dsimp only
    split
    · rename_i seen hash hsweep
      exact Inv.erase hx (hcare seen hash hsweep)
    · exact hx
  | sweepStart | sweepLook | sweepVisit hash | sweepEnd =>
    unfold Sweeping.step
    dsimp only
    repeat' split
    all_goals exact hx

theorem atoms_step (x : Sweeping ι H) (action : SubStep ι H) : x.atoms <+: (x.step action).atoms := by
  cases action with
  | begin expr path causalPast expiresAt now draw => exact List.prefix_append _ _
  | _ =>
    unfold Sweeping.step
    dsimp only
    repeat' split
    all_goals exact List.prefix_rfl

theorem atoms_run (x : Sweeping ι H) (actions : List (SubStep ι H)) : x.atoms <+: (x.run actions).atoms := by
  induction actions generalizing x with
  | nil => exact List.prefix_rfl
  | cons action actions ih => exact (atoms_step x action).trans (ih (x.step action))

omit [DecidableEq H] [Hashing H] in
theorem Distinct.of_isPrefix {y : Sweeping ι H} (hy : y.Distinct) (h : x.atoms <+: y.atoms) : x.Distinct :=
  List.Nodup.sublist (h.sublist.map _) hy

theorem Ok.run {actions : List (SubStep ι H)} (hx : x.Ok) (hcare : CarefulRun x actions)
    (hd : (x.run actions).Distinct) : (x.run actions).Ok := by
  induction actions generalizing x with
  | nil => exact hx
  | cons action actions ih =>
    exact ih (hx.step (hd.of_isPrefix (atoms_run x (action :: actions))) hcare.1) hcare.2 hd

/-- **Every hash of the frontier resolves**: after a run in which `Compact` has deleted no atom of the
frontier, and one more step, if no append is in progress then, exactly if that step is not the deletion of
an atom of the frontier by `Compact`. -/
theorem resolves_iff (atoms : List (CausalAtom ι H)) (actions : List (SubStep ι H))
    (hcare : CarefulRun (start atoms) actions) (action : SubStep ι H)
    (hd : (((start atoms).run actions).step action).Distinct)
    (hquiet : (((start atoms).run actions).step action).Quiet) :
    (((start atoms).run actions).step action).Resolves ↔ ((start atoms).run actions).Careful action := by
  have hd' := hd.of_isPrefix (atoms_step ((start atoms).run actions) action)
  have hok := (ok_start atoms).run hcare hd'
  constructor
  · intro hresolves
    cases action with
    | sweepDrop =>
      intro seen hash hsweep path hpath
      have hstep : ((start atoms).run actions).step .sweepDrop =
          { (start atoms).run actions with
            crystal := ((start atoms).run actions).crystal.drop hash, sweep := .ranging seen } := by
        unfold Sweeping.step
        dsimp only
        rw [hsweep]
      rw [hstep] at hresolves
      refine hresolves.1 path hash hpath ?_
      change (((start atoms).run actions).crystal.atomCache.erase hash).lookup hash = none
      rw [GoMap.lookup_erase, if_pos rfl]
    | _ => trivial
  · exact fun h => (hok.step hd' h).resolves hquiet

section Instances

local instance sweptHashing : Hashing Str := ⟨id, id, fun _ => 0⟩

/-- The steps of an append of a constant to `k` as the call `i`, if nothing has to be evicted. -/
def appendK (i : ℕ) (s : String) : List (SubStep Unit Str) :=
  [.begin (.eConst (.vString (str s))) (str "k") [] zeroTime 0 ⟨str s, none, []⟩, .log i none, .index i,
    .store i, .decide i]

/-- The hash of the atom of the call `i`, if `SET k a` is the first and `SET k b` the second one. -/
def hashK (i : ℕ) : Str := (((start []).run (appendK 0 "a" ++ appendK 1 "b")).atoms[i]?).elim [] (·.hash)

/-- `Compact` notes the frontier, `SET k b` comes, and the range over the cache gets to the new atom. -/
def sweptAway : List (SubStep Unit Str) :=
  appendK 0 "a" ++ [.sweepStart, .sweepLook, .sweepLook] ++ appendK 1 "b" ++
    [.sweepVisit (hashK 1), .sweepDrop]

/-- The frontier has a hash without an atom, and no append is in progress. -/
theorem compact_deletes_current : ((start []).run sweptAway).Distinct ∧ ((start []).run sweptAway).Quiet ∧
    ((start []).run sweptAway).crystal.frontier.lookup (str "k") = some (hashK 1) ∧
    ((start []).run sweptAway).crystal.getCurrent (str "k") = none ∧
    ¬ ((start []).run sweptAway).Resolves := by
  have hfrontier : ((start []).run sweptAway).crystal.frontier.lookup (str "k") = some (hashK 1) := by
    decide +kernel
  have hgone : ((start []).run sweptAway).crystal.atomCache.lookup (hashK 1) = none := by decide +kernel
  refine ⟨?_, ?_, hfrontier, ?_, fun h => h.1 (str "k") (hashK 1) hfrontier hgone⟩
  · unfold Distinct
    decide +kernel
  · unfold Quiet
    decide +kernel
  · rw [getCurrent, hfrontier]
    exact hgone

/-- `Compact` gets to the atom of `SET k a` after `SET k b`. -/
def sweptOld : List (SubStep Unit Str) :=
  appendK 0 "a" ++ appendK 1 "b" ++ [.sweepStart, .sweepLook, .sweepLook, .sweepVisit (hashK 0)]

theorem resolves_iff_swept_old : (((start []).run sweptOld).step .sweepDrop).Resolves := by
  refine (resolves_iff [] sweptOld ?_ .sweepDrop ?_ ?_).2 ?_
  · simp [sweptOld, appendK, CarefulRun, Careful]
  · unfold Distinct
    decide +kernel
  · unfold Quiet
    decide +kernel
  · intro seen hash hsweep path hpath
    have hat : ((start []).run sweptOld).sweep = .dropping [hashK 1] (hashK 0) := by decide +kernel
    have hoff : ((start []).run sweptOld).crystal.onFrontier (hashK 0) = false := by decide +kernel
    obtain ⟨-, rfl⟩ := Sweep.dropping.inj (hat.symm.trans hsweep)
    rw [(onFrontier_iff _ _).2 ⟨path, hpath⟩] at hoff
    cases hoff

end Instances

end Sweeping

end Wavicle.Storage
