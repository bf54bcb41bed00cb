import Wavicle.Storage.ShardedFrontier

/-! # What the methods of the sharded cache do

A reader sees the entries and the hash index of each shard.

* `ent`, `idx`: an entry and a hash as a reader sees them; `Same`, `Shrinks`, `Removes` compare two caches.
* One lemma for each method says what it does to them. -/

namespace Wavicle.Storage

open Lib Wavicle.Core Function

variable {ι H : Type}

namespace FrontierShard

variable (s : FrontierShard ι H)

@[simp] theorem entries_touch (path : Str) : (s.touch path).entries = s.entries := by
  unfold touch
  split <;> rfl

@[simp] theorem entries_unlink (path : Str) : (s.unlink path).entries = s.entries := by
  unfold unlink
  split <;> rfl

@[simp] theorem hashToPath_touch (path : Str) : (s.touch path).hashToPath = s.hashToPath := by
  unfold touch
  split <;> rfl

@[simp] theorem hashToPath_unlink (path : Str) : (s.unlink path).hashToPath = s.hashToPath := by
  unfold unlink
  split <;> rfl

section

variable [DecidableEq H]

variable (s : FrontierShard ι H) (path : Str) (atom : CausalAtom ι H)

@[simp] theorem entries_displace (old : CausalAtom ι H) : (s.displace path old).entries = s.entries := by
  simp [displace]

@[simp] theorem entries_assign :
    (s.assign path atom).entries = s.entries.insert path atom := rfl

@[simp] theorem entries_sweepEntry : (s.sweepEntry path atom).entries = s.entries.erase path := by
  simp [sweepEntry]

@[simp] theorem hashToPath_displace (old : CausalAtom ι H) :
    (s.displace path old).hashToPath = s.hashToPath.erase old.hash := by
  simp [displace]

@[simp] theorem hashToPath_assign :
    (s.assign path atom).hashToPath = s.hashToPath.insert atom.hash path := rfl

@[simp] theorem hashToPath_sweepEntry :
    (s.sweepEntry path atom).hashToPath = s.hashToPath.erase atom.hash := by
  simp [sweepEntry]

theorem evictOldest_spec {s s' : FrontierShard ι H} {freed : ℤ} (h : s.evictOldest = some (s', freed)) :
    (s'.entries = s.entries ∧ s'.hashToPath = s.hashToPath) ∨
      ∃ path atom, s.entries.lookup path = some atom ∧ s'.entries = s.entries.erase path ∧
        s'.hashToPath = s.hashToPath.erase atom.hash := by
  unfold evictOldest at h
  split at h
  · exact absurd h (by simp)
  · rename_i elem path _
    simp only at h
    split at h
    · obtain ⟨rfl, -⟩ := Prod.mk.inj (Option.some.inj h)
      exact Or.inl ⟨rfl, rfl⟩
    · rename_i atom hatom
      obtain ⟨rfl, -⟩ := Prod.mk.inj (Option.some.inj h)
      exact Or.inr ⟨path, atom, hatom, rfl, rfl⟩

end

end FrontierShard

namespace ShardedFrontierCache

variable [DecidableEq H] [Hashing H]

/-- The current atom of a path: the resident one, unless it has expired. -/
def current (f : ShardedFrontierCache ι H) (now : Time) (path : Str) : Option (CausalAtom ι H) :=
  (f.resident path).bind fun a => if a.expired now then none else some a

variable {f : ShardedFrontierCache ι H} {atom : CausalAtom ι H}

section

omit [DecidableEq H]

theorem current_eq_some {now : Time} {path : Str} {a : CausalAtom ι H} :
    f.current now path = some a ↔ f.resident path = some a ∧ a.expired now = false := by
  unfold current
  cases f.resident path with
  | none => simp
  | some b =>
    simp only [Option.bind_some]
    split_ifs with hb
    · constructor
      · intro h
        cases h
      · rintro ⟨h, h'⟩
        obtain rfl := Option.some.inj h
        rw [hb] at h'
        cases h'
    · constructor
      · intro h
        obtain rfl := Option.some.inj h
        exact ⟨rfl, by simpa using hb⟩
      · exact And.left

@[simp] theorem getCurrent_fst (f : ShardedFrontierCache ι H) (now : Time) (path : Str) :
    (f.getCurrent now path).1 = f.current now path := by
  unfold getCurrent current
  cases f.resident path with
  | none => rfl
  | some atom => cases he : atom.expired now <;> simp [he]

@[simp] theorem getCurrentHash_eq (f : ShardedFrontierCache ι H) (now : Time) (path : Str) :
    f.getCurrentHash now path = (f.current now path).map (·.hash) := by
  unfold getCurrentHash current
  cases f.resident path with
  | none => rfl
  | some atom => cases he : atom.expired now <;> simp [he]

end

theorem matchesEntry_iff (f : ShardedFrontierCache ι H) (now : Time) (path : Str) (h : H) :
    f.matchesEntry now path h = true ↔ (f.current now path).map (·.hash) = some h := by
  unfold matchesEntry current
  cases f.resident path with
  | none => simp
  | some atom => cases he : atom.expired now <;> simp [he]

/-! ### Changes -/

def ent (f : ShardedFrontierCache ι H) (i : Fin 32) (p : Str) : Option (CausalAtom ι H) :=
  (f.shards i).entries.lookup p

def idx (f : ShardedFrontierCache ι H) (i : Fin 32) (h : H) : Option Str :=
  (f.shards i).hashToPath.lookup h

omit [DecidableEq H] in
theorem resident_eq_ent (f : ShardedFrontierCache ι H) (p : Str) :
    f.resident p = f.ent (shardFor H p) p := rfl

/-- `atom` is assigned to its path, and the hash of the atom that was there is forgotten. -/
structure Puts (atom : CausalAtom ι H) (f f' : ShardedFrontierCache ι H) : Prop where
  ent_eq : ∀ i p, f'.ent i p =
    if i = shardFor H atom.path ∧ p = atom.path then some atom else f.ent i p
  idx_eq : ∀ i h, f'.idx i h =
    if i = shardFor H atom.path ∧ h = atom.hash then some atom.path
    else if i = shardFor H atom.path ∧ (f.resident atom.path).map (·.hash) = some h then none
    else f.idx i h

/-- The caches have the same entries and the same hashes. -/
structure Same (f f' : ShardedFrontierCache ι H) : Prop where
  ent_eq : ∀ i p, f'.ent i p = f.ent i p
  idx_eq : ∀ i h, f'.idx i h = f.idx i h

/-- Nothing changes, or one entry is taken out together with its hash. -/
inductive Removes (f f' : ShardedFrontierCache ι H) : Prop where
  | nothing (same : Same f f')
  | entry (i₀ : Fin 32) (path : Str) (atom : CausalAtom ι H) (present : f.ent i₀ path = some atom)
      (ent_eq : ∀ i p, f'.ent i p = if i = i₀ ∧ p = path then none else f.ent i p)
      (idx_eq : ∀ i h, f'.idx i h = if i = i₀ ∧ h = atom.hash then none else f.idx i h)

abbrev Shrinks : ShardedFrontierCache ι H → ShardedFrontierCache ι H → Prop :=
  Relation.ReflTransGen Removes

variable {f' : ShardedFrontierCache ι H}

theorem Same.resident (h : Same f f') : f'.resident = f.resident := by
  funext p
  exact h.ent_eq (shardFor H p) p

theorem Same.current (h : Same f f') (now : Time) : f'.current now = f.current now := by
  funext p
  unfold ShardedFrontierCache.current
  rw [h.resident]

omit [Hashing H] in
theorem Same.getAtom (h : Same f f') (now : Time) : f'.getAtom now = f.getAtom now := by
  have hin : ∀ i hash, atomIn (f'.shards i) now hash = atomIn (f.shards i) now hash := by
    intro i hash
    unfold atomIn
    rw [show (f'.shards i).hashToPath.lookup hash = (f.shards i).hashToPath.lookup hash from
      h.idx_eq i hash]
    cases (f.shards i).hashToPath.lookup hash with
    | none => rfl
    | some path =>
      simp only
      rw [show (f'.shards i).entries.lookup path = (f.shards i).entries.lookup path from
        h.ent_eq i path]
  funext hash
  simp only [ShardedFrontierCache.getAtom, hin]

theorem Removes.resident (h : Removes f f') (p : Str) :
    f'.resident p = f.resident p ∨ f'.resident p = none := by
  rw [resident_eq_ent, resident_eq_ent]
  cases h with
  | nothing same => exact Or.inl (same.ent_eq _ p)
  | entry i₀ path atom _ ent_eq _ =>
    rw [ent_eq]
    split_ifs
    · exact Or.inr rfl
    · exact Or.inl rfl

theorem Shrinks.resident (h : Shrinks f f') (p : Str) :
    f'.resident p = f.resident p ∨ f'.resident p = none := by
  induction h with
  | refl => exact Or.inl rfl
  | tail _ hstep ih =>
    rcases hstep.resident p with h | h
    · rw [h]
      exact ih
    · exact Or.inr h

theorem Puts.resident (h : Puts atom f f') :
    f'.resident = update f.resident atom.path (some atom) := by
  funext p
  rw [resident_eq_ent, h.ent_eq, update_apply]
  by_cases hp : p = atom.path
  · simp [hp]
  · simp [hp, resident_eq_ent]

/-! ### The changes each method makes -/

omit [DecidableEq H] in
theorem ent_setShard (f : ShardedFrontierCache ι H) (path : Str) (s : FrontierShard ι H)
    (i : Fin 32) (p : Str) :
    (f.setShard path s).ent i p = if i = shardFor H path then s.entries.lookup p else f.ent i p := by
  simp only [ent, setShard, update_apply]
  split_ifs <;> rfl

theorem idx_setShard (f : ShardedFrontierCache ι H) (path : Str) (s : FrontierShard ι H)
    (i : Fin 32) (h : H) : (f.setShard path s).idx i h =
      if i = shardFor H path then s.hashToPath.lookup h else f.idx i h := by
  simp only [idx, setShard, update_apply]
  split_ifs <;> rfl

theorem same_touch (f : ShardedFrontierCache ι H) (path : Str) :
    Same f (f.setShard path ((f.shard path).touch path)) := by
  refine ⟨fun i p => ?_, fun i h => ?_⟩
  · rw [ent_setShard]
    split_ifs with hi
    · simp [ent, shard, hi]
    · rfl
  · rw [idx_setShard]
    split_ifs with hi
    · simp [idx, shard, hi]
    · rfl

theorem same_getCurrent (f : ShardedFrontierCache ι H) (now : Time) (path : Str) :
    Same f (f.getCurrent now path).2 := by
  unfold getCurrent
  split
  · exact ⟨fun _ _ => rfl, fun _ _ => rfl⟩
  · split_ifs
    · exact ⟨fun _ _ => rfl, fun _ _ => rfl⟩
    · exact same_touch f path

theorem puts_setShard {s : FrontierShard ι H} (hf' : f'.shards = (f.setShard atom.path s).shards)
    (hent : s.entries = (f.shard atom.path).entries.insert atom.path atom)
    (hidx : ∀ h, s.hashToPath.lookup h = if h = atom.hash then some atom.path else
      if (f.resident atom.path).map (·.hash) = some h then none
      else (f.shard atom.path).hashToPath.lookup h) :
    Puts atom f f' := by
  refine ⟨fun i p => ?_, fun i h => ?_⟩
  · rw [ent, hf', ← ent, ent_setShard, hent, GoMap.lookup_insert]
    by_cases hi : i = shardFor H atom.path
    · simp only [hi, true_and, if_true]
      rfl
    · simp [hi]
  · rw [idx, hf', ← idx, idx_setShard, hidx]
    by_cases hi : i = shardFor H atom.path
    · simp only [hi, true_and, if_true]
      rfl
    · simp [hi]

theorem puts_replace (f : ShardedFrontierCache ι H) (atom : CausalAtom ι H) :
    Puts atom f (f.replace atom) := by
  unfold replace
  simp only
  split
  · rename_i hnone
    refine puts_setShard rfl (by simp) fun h => ?_
    simp [GoMap.lookup_insert, hnone]
  · rename_i old hold
    refine puts_setShard rfl (by simp) fun h => ?_
    simp [GoMap.lookup_insert, GoMap.lookup_erase, hold, eq_comm]

/-- **The guarded insert** puts the atom in, or changes nothing because the resident atom is kept. -/
theorem insertAtom_spec (f : ShardedFrontierCache ι H) (atom : CausalAtom ι H) :
    ((f.insertAtom atom).2.2 = true ∧ Puts atom f (f.insertAtom atom).2.1 ∧
        ∀ old, f.resident atom.path = some old → keeps old atom = none) ∨
      ((f.insertAtom atom).2.2 = false ∧ Same f (f.insertAtom atom).2.1 ∧
        ∃ old, f.resident atom.path = some old ∧ keeps old atom ≠ none) := by
  unfold insertAtom
  split
  · rename_i hnone
    refine Or.inl ⟨rfl, puts_replace f atom, fun old hold => ?_⟩
    rw [hnone] at hold
    cases hold
  · rename_i old hold
    split
    · rename_i hk
      exact Or.inr ⟨rfl, same_touch f atom.path, old, hold, by simp [hk]⟩
    · rename_i hk
      exact Or.inr ⟨rfl, ⟨fun _ _ => rfl, fun _ _ => rfl⟩, old, hold, by simp [hk]⟩
    · rename_i hk
      refine Or.inl ⟨rfl, puts_replace f atom, fun old' hold' => ?_⟩
      rw [hold] at hold'
      obtain rfl := Option.some.inj hold'
      exact hk

section

omit [Hashing H]

theorem removes_evictOldest {victim : Fin 32}
    {s : FrontierShard ι H} {freed : ℤ} (hs : (f.shards victim).evictOldest = some (s, freed))
    (hf' : f'.shards = update f.shards victim s) : Removes f f' := by
  rcases FrontierShard.evictOldest_spec hs with ⟨he, hx⟩ | ⟨path, atom, hat, he, hx⟩
  · refine .nothing ⟨fun i p => ?_, fun i h => ?_⟩
    · simp only [ent, hf', update_apply]
      split_ifs with hi
      · rw [he, hi]
      · rfl
    · simp only [idx, hf', update_apply]
      split_ifs with hi
      · rw [hx, hi]
      · rfl
  · refine .entry victim path atom hat (fun i p => ?_) (fun i h => ?_)
    · simp only [ent, hf', update_apply]
      by_cases hi : i = victim
      · simp only [hi, if_true, true_and, he, GoMap.lookup_erase]
      · simp [hi]
    · simp only [idx, hf', update_apply]
      by_cases hi : i = victim
      · simp only [hi, if_true, true_and, hx, GoMap.lookup_erase]
      · simp [hi]

theorem removes_evictRound (h : f.evictRound = some f') : Removes f f' := by
  unfold evictRound at h
  split at h
  · cases h
  · split_ifs at h
    split at h
    · cases h
    · rename_i hs
      obtain rfl := Option.some.inj h
      exact removes_evictOldest hs rfl

theorem shrinks_evictRounds (target : ℤ) : ∀ (fuel : ℕ) (f : ShardedFrontierCache ι H),
    Shrinks f (evictRounds target fuel f)
  | 0, _ => .refl
  | fuel + 1, f => by
    unfold evictRounds
    split_ifs with hbytes
    · exact .refl
    · split
      · exact .refl
      · rename_i f' hf'
        split_ifs with hempty
        · exact .single (removes_evictRound hf')
        · exact .head (removes_evictRound hf') (shrinks_evictRounds target fuel f')

end

/-- The cache after the clock tick and the guarded insert of an append, before the ceiling is
enforced. -/
def inserted (f : ShardedFrontierCache ι H) (now : Time) (expr : Expr ι H) (path : Str)
    (expiresAt : Time) : ShardedFrontierCache ι H :=
  ({ f with clock := f.clock + 1 }.insertAtom (f.mint now expr path expiresAt)).2.1

theorem shrinks_appendAtom (f : ShardedFrontierCache ι H) (now : Time) (expr : Expr ι H)
    (path : Str) (expiresAt : Time) :
    Shrinks (f.inserted now expr path expiresAt) (f.appendAtom now expr path expiresAt).2 := by
  unfold inserted appendAtom
  simp only
  split
  · rename_i heq
    rw [heq]
  · rename_i heq
    rw [heq]
    simp only
    split_ifs
    · exact shrinks_evictRounds _ _ _
    · exact .refl

def withShard (f : ShardedFrontierCache ι H) (i : Fin 32) (s : FrontierShard ι H) :
    ShardedFrontierCache ι H :=
  { f with shards := update f.shards i s }

section

omit [Hashing H]

theorem removes_sweepEntry (f : ShardedFrontierCache ι H) (i : Fin 32) (s : FrontierShard ι H)
    {path : Str} (h : s.entries.lookup path = some atom) :
    Removes (f.withShard i s) (f.withShard i (s.sweepEntry path atom)) := by
  refine .entry i path atom (by simp [ent, withShard, h]) (fun j p => ?_) (fun j h => ?_)
  · simp only [ent, withShard, update_apply]
    by_cases hj : j = i
    · simp [hj, GoMap.lookup_erase]
    · simp [hj]
  · simp only [idx, withShard, update_apply]
    by_cases hj : j = i
    · simp [hj, GoMap.lookup_erase]
    · simp [hj]

theorem shrinks_sweep_entries (f : ShardedFrontierCache ι H) (now : Time) (i : Fin 32) :
    ∀ (es : List (Σ _ : Str, CausalAtom ι H)) (s : FrontierShard ι H), es.NodupKeys →
      (∀ e ∈ es, s.entries.lookup e.1 = some e.2) →
      Shrinks (f.withShard i s) (f.withShard i
        (es.foldl (fun s e => if e.2.expired now then s.sweepEntry e.1 e.2 else s) s))
  | [], _, _, _ => .refl
  | e :: es, s, hnd, hes => by
    obtain ⟨hfresh, hnd⟩ := List.nodupKeys_cons.1 hnd
    rw [List.foldl_cons]
    split_ifs with hexp
    · refine .head (removes_sweepEntry f i s (hes e (.head _)))
        (shrinks_sweep_entries f now i es _ hnd fun e' he' => ?_)
      have hne : e'.1 ≠ e.1 := by
        intro heq
        exact hfresh (heq ▸ List.mem_keys_of_mem he')
      rw [FrontierShard.entries_sweepEntry, GoMap.lookup_erase, if_neg hne]
      exact hes e' (.tail _ he')
    · exact shrinks_sweep_entries f now i es s hnd (List.forall_mem_cons.1 hes).2

theorem shrinks_sweep_shard (f : ShardedFrontierCache ι H) (now : Time) (i : Fin 32) :
    Shrinks f (f.withShard i ((f.shards i).sweep now)) := by
  have h := shrinks_sweep_entries f now i (f.shards i).entries.entries (f.shards i)
    (f.shards i).entries.nodupKeys fun _ he => GoMap.lookup_eq_some.2 he
  have hself : f.withShard i (f.shards i) = f := by simp [withShard]
  rwa [hself] at h

theorem sweepExpired_eq_self {now : Time} (h : ∀ i p a, f.ent i p = some a → a.expired now = false) :
    f.sweepExpired now = f := by
  have hfold : ∀ (es : List (Σ _ : Str, CausalAtom ι H)) (s : FrontierShard ι H),
      (∀ e ∈ es, e.2.expired now = false) →
      es.foldl (fun s e => if e.2.expired now then s.sweepEntry e.1 e.2 else s) s = s := by
    intro es s hes
    induction es with
    | nil => rfl
    | cons e es ih =>
      rw [List.foldl_cons, hes e (.head _)]
      exact ih (List.forall_mem_cons.1 hes).2
  have hshard : ∀ i, (f.shards i).sweep now = f.shards i := fun i =>
    hfold _ _ fun e he => h i e.1 e.2 (GoMap.lookup_eq_some.2 he)
  unfold sweepExpired
  simp [hshard]

theorem shrinks_sweepExpired (f : ShardedFrontierCache ι H) (now : Time) :
    Shrinks f (f.sweepExpired now) := by
  have hmany : ∀ is : List (Fin 32),
      Shrinks f { f with shards := fun i => if i ∈ is then (f.shards i).sweep now else f.shards i }
      := by
    intro is
    induction is with
    | nil =>
      simp only [List.not_mem_nil, if_false]
      exact .refl
    | cons a is ih =>
      by_cases ha : a ∈ is
      · have hsame : ∀ i, i ∈ a :: is ↔ i ∈ is := by
          intro i
          simp only [List.mem_cons, or_iff_right_iff_imp]
          rintro rfl
          exact ha
        simpa only [hsame] using ih
      · refine ih.trans ?_
        convert shrinks_sweep_shard
          { f with shards := fun i => if i ∈ is then (f.shards i).sweep now else f.shards i } now a
          using 1
        simp only [withShard, ha, if_false]
        congr 1
        funext i
        by_cases hi : i = a
        · simp [hi]
        · simp [hi]
  refine (hmany (List.finRange 32)).tail (.nothing ⟨fun i p => ?_, fun i h => ?_⟩)
  · simp [ent, sweepExpired]
  · simp [idx, sweepExpired]

end

/-! ### The clock -/

omit [DecidableEq H] in
@[simp] theorem clock_setShard (f : ShardedFrontierCache ι H) (path : Str)
    (s : FrontierShard ι H) : (f.setShard path s).clock = f.clock := rfl

@[simp] theorem clock_replace (f : ShardedFrontierCache ι H) (atom : CausalAtom ι H) :
    (f.replace atom).clock = f.clock := by
  unfold replace
  simp only
  split <;> rfl

@[simp] theorem clock_insertAtom (f : ShardedFrontierCache ι H) (atom : CausalAtom ι H) :
    (f.insertAtom atom).2.1.clock = f.clock := by
  unfold insertAtom
  split
  · simp
  · split <;> simp

omit [Hashing H] in
theorem clock_evictRound (h : f.evictRound = some f') : f'.clock = f.clock := by
  unfold evictRound at h
  split at h
  · cases h
  · split_ifs at h
    split at h
    · cases h
    · obtain rfl := Option.some.inj h
      rfl

omit [Hashing H] in
@[simp] theorem clock_evictRounds (target : ℤ) : ∀ (fuel : ℕ) (f : ShardedFrontierCache ι H),
    (evictRounds target fuel f).clock = f.clock
  | 0, _ => rfl
  | fuel + 1, f => by
    unfold evictRounds
    split_ifs
    · rfl
    · split
      · rfl
      · rename_i hf'
        split_ifs
        · exact clock_evictRound hf'
        · rw [clock_evictRounds target fuel, clock_evictRound hf']

theorem clock_appendAtom (f : ShardedFrontierCache ι H) (now : Time) (expr : Expr ι H)
    (path : Str) (expiresAt : Time) : (f.appendAtom now expr path expiresAt).2.clock = f.clock + 1 := by
  have hins := clock_insertAtom { f with clock := f.clock + 1 } (f.mint now expr path expiresAt)
  unfold appendAtom
  simp only
  split
  · rename_i heq
    rw [heq] at hins
    exact hins
  · rename_i heq
    rw [heq] at hins
    simp only
    split_ifs
    · rw [evictToTarget, clock_evictRounds]
      exact hins
    · exact hins

omit [DecidableEq H] in
@[simp] theorem clock_getCurrent (f : ShardedFrontierCache ι H) (now : Time) (path : Str) :
    (f.getCurrent now path).2.clock = f.clock := by
  unfold getCurrent
  split
  · rfl
  · split_ifs <;> rfl

end ShardedFrontierCache

end Wavicle.Storage
