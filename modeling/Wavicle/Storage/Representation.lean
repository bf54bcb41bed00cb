import Wavicle.Storage.ShardedRuns

/-! # The representation of the sharded cache

A shard keeps the entries, the index of hashes, the LRU list, its elements by path, and the number of bytes;
`Represents` says what they have to do with each other. -/

namespace Wavicle.Storage

open Lib Wavicle.Core GoMap

variable {ι H : Type}

/-! ### One shard -/

namespace FrontierShard

def lruPaths (s : FrontierShard ι H) : List Str := s.lruList.elems.map (·.2)

def entryBytes (s : FrontierShard ι H) : ℤ := total estimateAtomBytes s.entries

/-- The LRU list is the list of the elements in `lruNodes`. -/
structure Linked (s : FrontierShard ι H) : Prop where
  wf : s.lruList.WellFormed
  nodes : ∀ p e, s.lruNodes.lookup p = some e ↔ (e, p) ∈ s.lruList.elems

/-- Entries and LRU list have the same paths, and the bytes are those of the entries. -/
structure Sound (s : FrontierShard ι H) : Prop extends Linked s where
  same : ∀ p, s.entries.lookup p = none ↔ s.lruNodes.lookup p = none
  bytes_eq : s.bytes = s.entryBytes

theorem sound_empty : Sound (⟨∅, ∅, .new, ∅, 0⟩ : FrontierShard ι H) :=
  ⟨⟨LinkedList.wellFormed_new, fun p e => by simp [LinkedList.new]⟩, by simp, rfl⟩

variable {s : FrontierShard ι H} {path : Str}

theorem Linked.mem_lruPaths (h : s.Linked) {p : Str} : p ∈ s.lruPaths ↔ s.lruNodes.lookup p ≠ none := by
  simp [lruPaths, Option.ne_none_iff_exists', h.nodes]

theorem Linked.nodup_lruPaths (h : s.Linked) : s.lruPaths.Nodup := by
  refine List.Nodup.map_on ?_ (List.Nodup.of_map _ h.wf.nodup)
  rintro ⟨e, p⟩ hx ⟨e', p'⟩ hy rfl
  have he := (h.nodes p e).2 hx
  rw [(h.nodes p e').2 hy] at he
  rw [Option.some.inj he]

theorem Linked.path_unique (h : s.Linked) {e : ℕ} {p q : Str} (hp : (e, p) ∈ s.lruList.elems)
    (hq : (e, q) ∈ s.lruList.elems) : p = q :=
  congrArg Prod.snd (List.inj_on_of_nodup_map h.wf.nodup hp hq rfl)

variable {s' : FrontierShard ι H}

theorem Linked.removeElem (h : s.Linked) {e : ℕ} {p : Str}
    (hp : (e, p) ∈ s.lruList.elems) (hlist : s'.lruList = s.lruList.remove e)
    (hnodes : s'.lruNodes = s.lruNodes.erase p) : s'.Linked := by
  refine ⟨hlist ▸ h.wf.remove e, fun q e' => ?_⟩
  rw [hlist, hnodes, LinkedList.mem_remove, lookup_erase]
  split_ifs with hq
  · subst hq
    simp only [false_iff, not_and, not_not]
    intro hmem
    have hfst := (h.nodes q e').2 hmem
    rw [(h.nodes q e).2 hp] at hfst
    exact (Option.some.inj hfst).symm
  · rw [h.nodes]
    refine ⟨fun hmem => ⟨hmem, ?_⟩, And.left⟩
    rintro rfl
    exact hq (h.path_unique hmem hp)

variable [DecidableEq H]

section

omit [DecidableEq H]

theorem bytes_touch (s : FrontierShard ι H) (path : Str) : (s.touch path).bytes = s.bytes := by
  unfold touch
  split <;> rfl

theorem bytes_unlink (s : FrontierShard ι H) (path : Str) : (s.unlink path).bytes = s.bytes := by
  unfold unlink
  split <;> rfl

theorem Linked.touch (h : s.Linked) (path : Str) :
    (s.touch path).Linked ∧ (s.touch path).lruNodes = s.lruNodes := by
  unfold FrontierShard.touch
  split
  · exact ⟨h, rfl⟩
  · rename_i e _
    refine ⟨⟨h.wf.moveToFront e, fun p e' => ?_⟩, rfl⟩
    rw [(s.lruList.perm_moveToFront e).mem_iff]
    exact h.nodes p e'

theorem Linked.unlink (h : s.Linked) (path : Str) :
    (s.unlink path).Linked ∧ (s.unlink path).lruNodes = s.lruNodes.erase path := by
  unfold FrontierShard.unlink
  split
  · rename_i hnone
    exact ⟨h, (erase_of_lookup_eq_none hnone).symm⟩
  · rename_i e he
    exact ⟨h.removeElem ((h.nodes path e).1 he) rfl rfl, rfl⟩

end

omit [DecidableEq H] in
theorem Sound.touch (h : s.Sound) (path : Str) : (s.touch path).Sound := by
  obtain ⟨hlinked, hnodes⟩ := h.toLinked.touch path
  refine ⟨hlinked, fun p => ?_, ?_⟩
  · rw [entries_touch, hnodes]
    exact h.same p
  · rw [bytes_touch, entryBytes, entries_touch]
    exact h.bytes_eq

theorem Linked.assign (h : s.Linked) (hnone : s.lruNodes.lookup path = none) (atom : CausalAtom ι H) :
    (s.assign path atom).Linked := by
  refine ⟨h.wf.pushFront path, fun p e => ?_⟩
  change (s.lruNodes.insert path s.lruList.next).lookup p = some e ↔
    (e, p) ∈ (s.lruList.pushFront path).2.elems
  rw [lookup_insert, LinkedList.mem_pushFront]
  split_ifs with hp
  · subst hp
    have hnot : ¬ (e, p) ∈ s.lruList.elems := by
      rw [← h.nodes, hnone]
      simp
    simp [hnot, eq_comm]
  · simp [h.nodes, hp]

theorem Sound.assign (h : s.Sound) (hnone : s.entries.lookup path = none) (atom : CausalAtom ι H) :
    (s.assign path atom).Sound := by
  refine ⟨h.toLinked.assign ((h.same path).1 hnone) atom, fun p => ?_, ?_⟩
  · change (s.entries.insert path atom).lookup p = none ↔
      (s.lruNodes.insert path s.lruList.next).lookup p = none
    rw [lookup_insert, lookup_insert]
    split_ifs
    · simp
    · exact h.same p
  · change s.bytes + estimateAtomBytes path atom = total _ (s.entries.insert path atom)
    rw [total_insert, erase_of_lookup_eq_none hnone, h.bytes_eq]
    rfl

theorem Sound.displace_assign (h : s.Sound) {old : CausalAtom ι H}
    (hold : s.entries.lookup path = some old) (atom : CausalAtom ι H) :
    ((s.displace path old).assign path atom).Sound := by
  obtain ⟨hlinked, hnodes⟩ := Linked.unlink (s := { s with
    hashToPath := s.hashToPath.erase old.hash
    bytes := s.bytes - estimateAtomBytes path old }) ⟨h.wf, h.nodes⟩ path
  have hgone : (s.displace path old).lruNodes.lookup path = none := by
    rw [displace, hnodes, lookup_erase, if_pos rfl]
  refine ⟨Linked.assign hlinked hgone atom, fun p => ?_, ?_⟩
  · change ((s.displace path old).entries.insert path atom).lookup p = none ↔
      ((s.displace path old).lruNodes.insert path _).lookup p = none
    rw [lookup_insert, lookup_insert]
    split_ifs with hp
    · simp
    · rw [entries_displace, displace, hnodes, lookup_erase, if_neg hp]
      exact h.same p
  · change (s.displace path old).bytes + estimateAtomBytes path atom =
      total _ ((s.displace path old).entries.insert path atom)
    rw [total_insert, entries_displace, total_erase _ hold, displace, bytes_unlink]
    simp only
    rw [h.bytes_eq]
    rfl

omit [DecidableEq H] in
theorem Sound.remove (h : s.Sound) {atom : CausalAtom ι H}
    (hatom : s.entries.lookup path = some atom) (hlinked : s'.Linked)
    (hnodes : s'.lruNodes = s.lruNodes.erase path) (hentries : s'.entries = s.entries.erase path)
    (hbytes : s'.bytes = s.bytes - estimateAtomBytes path atom) : s'.Sound := by
  refine ⟨hlinked, fun p => ?_, ?_⟩
  · rw [hentries, hnodes, lookup_erase, lookup_erase]
    split_ifs
    · simp
    · exact h.same p
  · rw [hbytes, entryBytes, hentries, total_erase _ hatom, h.bytes_eq]
    rfl

theorem bytes_sweepEntry (s : FrontierShard ι H) (path : Str) (atom : CausalAtom ι H) :
    (s.sweepEntry path atom).bytes = s.bytes - estimateAtomBytes path atom := by
  rw [sweepEntry, bytes_unlink]

theorem Sound.sweepEntry (h : s.Sound) {atom : CausalAtom ι H}
    (hatom : s.entries.lookup path = some atom) : (s.sweepEntry path atom).Sound := by
  obtain ⟨hlinked, hnodes⟩ := Linked.unlink (s := { s with
    entries := s.entries.erase path
    hashToPath := s.hashToPath.erase atom.hash
    bytes := s.bytes - estimateAtomBytes path atom }) ⟨h.wf, h.nodes⟩ path
  exact h.remove hatom hlinked hnodes (entries_sweepEntry s path atom) (bytes_sweepEntry s path atom)

theorem Sound.sweepEntries (now : Time) : ∀ (es : List (Σ _ : Str, CausalAtom ι H))
    (s : FrontierShard ι H), s.Sound → es.NodupKeys → (∀ e ∈ es, s.entries.lookup e.1 = some e.2) →
      (es.foldl (fun s e => if e.2.expired now then s.sweepEntry e.1 e.2 else s) s).Sound
  | [], _, h, _, _ => h
  | e :: es, s, h, hnd, hes => by
    obtain ⟨hfresh, hnd⟩ := List.nodupKeys_cons.1 hnd
    rw [List.foldl_cons]
    split_ifs with hexp
    · refine sweepEntries now es _ (h.sweepEntry (hes e (.head _))) hnd fun e' he' => ?_
      have hne : e'.1 ≠ e.1 := fun heq => hfresh (heq ▸ List.mem_keys_of_mem he')
      rw [entries_sweepEntry, lookup_erase, if_neg hne]
      exact hes e' (.tail _ he')
    · exact sweepEntries now es s h hnd (List.forall_mem_cons.1 hes).2

theorem Sound.sweep (h : s.Sound) (now : Time) : (s.sweep now).Sound :=
  Sound.sweepEntries now _ s h s.entries.nodupKeys fun _ he => lookup_eq_some.2 he

theorem Sound.evictOldest {freed : ℤ} (h : s.Sound)
    (hs : s.evictOldest = some (s', freed)) : s'.Sound ∧ freed = s.bytes - s'.bytes := by
  unfold FrontierShard.evictOldest at hs
  split at hs
  · cases hs
  · rename_i elem path hback
    have hmem := LinkedList.mem_of_back hback
    simp only at hs
    split at hs
    · rename_i hnone
      have hnode := (h.nodes path elem).2 hmem
      rw [(h.same path).1 hnone] at hnode
      cases hnode
    · rename_i atom hatom
      obtain ⟨rfl, rfl⟩ := Prod.mk.inj (Option.some.inj hs)
      refine ⟨h.remove hatom (h.toLinked.removeElem hmem rfl rfl) rfl rfl rfl, ?_⟩
      simp

end FrontierShard

/-! ### The whole cache -/

namespace ShardedFrontierCache

variable [DecidableEq H] [Hashing H]

def sweepShard (f : ShardedFrontierCache ι H) (now : Time) (i : Fin 32) : ShardedFrontierCache ι H :=
  { f with
    shards := Function.update f.shards i ((f.shards i).sweep now)
    currentBytes := f.currentBytes + (((f.shards i).sweep now).bytes - (f.shards i).bytes) }

/-- Every shard is sound, and `currentBytes` is the sum of their bytes. -/
structure Balanced (f : ShardedFrontierCache ι H) : Prop where
  sound : ∀ i, (f.shards i).Sound
  currentBytes_eq : f.currentBytes = ∑ i, (f.shards i).bytes

omit [DecidableEq H] [Hashing H] in
theorem balanced_new (maxBytes : ℤ) : (new maxBytes : ShardedFrontierCache ι H).Balanced :=
  ⟨fun _ => FrontierShard.sound_empty, by simp [new]⟩

variable {f : ShardedFrontierCache ι H}

omit [DecidableEq H] [Hashing H] in
theorem Balanced.update {f' : ShardedFrontierCache ι H} (h : f.Balanced) {i : Fin 32}
    {s : FrontierShard ι H} (hs : s.Sound) (hshards : f'.shards = Function.update f.shards i s)
    (hbytes : f'.currentBytes = f.currentBytes - (f.shards i).bytes + s.bytes) : f'.Balanced := by
  refine ⟨fun j => ?_, ?_⟩
  · rw [hshards, Function.update_apply]
    split_ifs
    · exact hs
    · exact h.sound j
  · have hsum : (fun j => (Function.update f.shards i s j).bytes) =
        Function.update (fun j => (f.shards j).bytes) i s.bytes := by
      funext j
      exact Function.apply_update (fun _ t => FrontierShard.bytes t) f.shards i s j
    have hupdate := Finset.sum_update_of_mem (Finset.mem_univ i) (fun j => (f.shards j).bytes) s.bytes
    have hsplit := Finset.add_sum_erase Finset.univ (fun j => (f.shards j).bytes) (Finset.mem_univ i)
    rw [← Finset.erase_eq] at hupdate
    rw [hbytes, h.currentBytes_eq, hshards, hsum, hupdate]
    omega

omit [DecidableEq H] [Hashing H] in
theorem Balanced.tick (h : f.Balanced) (clock : ℕ) :
    { f with clock := clock }.Balanced := ⟨h.sound, h.currentBytes_eq⟩

omit [DecidableEq H] in
theorem Balanced.touch (h : f.Balanced) (path : Str) :
    (f.setShard path ((f.shard path).touch path)).Balanced := by
  refine h.update ((h.sound _).touch path) rfl ?_
  rw [FrontierShard.bytes_touch]
  change f.currentBytes = f.currentBytes - (f.shard path).bytes + (f.shard path).bytes
  omega

omit [DecidableEq H] in
theorem Balanced.getCurrent (h : f.Balanced) (now : Time) (path : Str) :
    (f.getCurrent now path).2.Balanced := by
  unfold ShardedFrontierCache.getCurrent
  split
  · exact h
  · split_ifs
    · exact h
    · exact h.touch path

theorem Balanced.replace (h : f.Balanced) (atom : CausalAtom ι H) : (f.replace atom).Balanced := by
  unfold ShardedFrontierCache.replace
  simp only
  split
  · rename_i hnone
    refine h.update ((h.sound _).assign hnone atom) rfl ?_
    change f.currentBytes + _ = f.currentBytes - (f.shard atom.path).bytes +
      ((f.shard atom.path).bytes + _)
    omega
  · rename_i old hold
    refine h.update ((h.sound _).displace_assign hold atom) rfl ?_
    have hdisplaced : ((f.shard atom.path).displace atom.path old).bytes =
        (f.shard atom.path).bytes - estimateAtomBytes atom.path old :=
      FrontierShard.bytes_unlink _ _
    change f.currentBytes - _ + _ = f.currentBytes - (f.shard atom.path).bytes +
      (((f.shard atom.path).displace atom.path old).bytes + _)
    rw [hdisplaced]
    omega

theorem Balanced.insertAtom (h : f.Balanced) (atom : CausalAtom ι H) :
    (f.insertAtom atom).2.1.Balanced := by
  unfold ShardedFrontierCache.insertAtom
  split
  · exact h.replace atom
  · split
    · exact h.touch atom.path
    · exact h
    · exact h.replace atom

omit [Hashing H] in
theorem Balanced.evict (h : f.Balanced) {victim : Fin 32} {s : FrontierShard ι H} {freed : ℤ}
    (hs : (f.shards victim).evictOldest = some (s, freed)) :
    Balanced { f with
      shards := Function.update f.shards victim s
      currentBytes := f.currentBytes - freed } := by
  obtain ⟨hsound, hfreed⟩ := (h.sound victim).evictOldest hs
  refine h.update hsound rfl ?_
  change f.currentBytes - freed = _
  omega

omit [Hashing H] in
theorem Balanced.sweepShard (h : f.Balanced) (now : Time) (i : Fin 32) : (f.sweepShard now i).Balanced := by
  refine h.update ((h.sound i).sweep now) rfl ?_
  change f.currentBytes + _ = _
  omega

/-- **What the structures of the cache have to do with each other.** -/
structure Represents (f : ShardedFrontierCache ι H) : Prop where
  owner : ∀ i p, (f.shards i).entries.lookup p ≠ none → shardFor H p = i
  node_iff : ∀ i p, (f.shards i).entries.lookup p ≠ none ↔ (f.shards i).lruNodes.lookup p ≠ none
  lru_iff : ∀ i p, (f.shards i).lruNodes.lookup p ≠ none ↔ (f.shards i).lruPaths.count p = 1
  lru_once : ∀ i, (f.shards i).lruPaths.Nodup
  index_iff : ∀ i h p, (f.shards i).hashToPath.lookup h = some p ↔
    ∃ a, (f.shards i).entries.lookup p = some a ∧ a.hash = h
  bytes_eq : ∀ i, (f.shards i).bytes =
    ((f.shards i).entries.entries.map fun e => estimateAtomBytes e.1 e.2).sum
  currentBytes_eq : f.currentBytes = ∑ i, (f.shards i).bytes

theorem Balanced.represents (h : f.Balanced) {log : List (CausalAtom ι H)}
    (hexact : World.Exact f log) (hd : (log.map (·.hash)).Nodup) :
    f.Represents where
  owner i p hp := by
    obtain ⟨a, ha⟩ := Option.ne_none_iff_exists'.1 hp
    exact (hexact.owner i p a ha).1
  node_iff i p := not_congr ((h.sound i).same p)
  lru_iff i p := by
    rw [← (h.sound i).mem_lruPaths, (h.sound i).nodup_lruPaths.count]
    simp
  lru_once i := (h.sound i).nodup_lruPaths
  index_iff i h p := hexact.index hd i h p
  bytes_eq i := (h.sound i).bytes_eq
  currentBytes_eq := h.currentBytes_eq

end ShardedFrontierCache

/-! ### Interleavings -/

/-- A cache that any number of threads are working on: the atoms that `AppendAtom` has minted and
not yet inserted, and those it has. -/
structure Threads (ι H : Type) where
  cache : ShardedFrontierCache ι H
  minted : List (CausalAtom ι H)
  inserted : List (CausalAtom ι H)

namespace Threads

variable [DecidableEq H] [Hashing H]

/-- A step of a thread: an atom is made, or an atom that was made comes into its shard. -/
inductive Step (w : Threads ι H) : Threads ι H → Prop where
  | mint (now : Time) (expr : Expr ι H) (path : Str) (expiresAt : Time) :
      Step w { w with
        cache := { w.cache with clock := w.cache.clock + 1 }
        minted := w.cache.mint now expr path expiresAt :: w.minted }
  | insert (before after : List (CausalAtom ι H)) (atom : CausalAtom ι H)
      (h : w.minted = before ++ atom :: after) :
      Step w ⟨(w.cache.insertAtom atom).2.1, before ++ after, atom :: w.inserted⟩
  | touch (now : Time) (path : Str) : Step w { w with cache := (w.cache.getCurrent now path).2 }
  | evict (victim : Fin 32) (s : FrontierShard ι H) (freed : ℤ)
      (h : (w.cache.shards victim).evictOldest = some (s, freed)) :
      Step w { w with cache := { w.cache with
        shards := Function.update w.cache.shards victim s
        currentBytes := w.cache.currentBytes - freed } }
  | sweep (now : Time) (i : Fin 32) : Step w { w with cache := w.cache.sweepShard now i }

/-- A state of the cache under threads. -/
def Reachable (w : Threads ι H) : Prop :=
  ∃ maxBytes, Relation.ReflTransGen Step ⟨.new maxBytes, [], []⟩ w

/-- No two atoms have the same hash. -/
def Distinct (w : Threads ι H) : Prop := ((w.minted ++ w.inserted).map (·.hash)).Nodup

/-- The shards show exactly what has come in, with the right counters. -/
structure Inv (w : Threads ι H) : Prop where
  exact : World.Exact w.cache w.inserted
  balanced : w.cache.Balanced

theorem inv_new (maxBytes : ℤ) : Inv (⟨.new maxBytes, [], []⟩ : Threads ι H) :=
  ⟨(World.inv_init maxBytes 0).exact, ShardedFrontierCache.balanced_new maxBytes⟩

theorem Inv.step {w w' : Threads ι H} (hw : w.Inv) (h : Step w w') : w'.Inv := by
  cases h with
  | mint now expr path expiresAt =>
    exact ⟨⟨hw.exact.owner, hw.exact.logged, hw.exact.index⟩, hw.balanced.tick _⟩
  | insert before after atom hminted =>
    refine ⟨?_, hw.balanced.insertAtom atom⟩
    rcases w.cache.insertAtom_spec atom with ⟨-, hput, -⟩ | ⟨-, hsame, -⟩
    · exact hw.exact.puts hput
    · exact (hw.exact.removes (.nothing hsame)).log atom
  | touch now path =>
    exact ⟨hw.exact.removes (.nothing (ShardedFrontierCache.same_getCurrent ..)),
      hw.balanced.getCurrent now path⟩
  | evict victim s freed hs =>
    exact ⟨hw.exact.removes (ShardedFrontierCache.removes_evictOldest hs rfl), hw.balanced.evict hs⟩
  | sweep now i =>
    have hswept := hw.exact.shrinks (w.cache.shrinks_sweep_shard now i)
    exact ⟨hswept.removes (.nothing ⟨fun _ _ => rfl, fun _ _ => rfl⟩), hw.balanced.sweepShard now i⟩

theorem Reachable.inv {w : Threads ι H} (h : w.Reachable) : w.Inv := by
  obtain ⟨maxBytes, hrun⟩ := h
  induction hrun with
  | refl => exact inv_new maxBytes
  | tail _ hstep ih => exact ih.step hstep

/-- **The representation invariant** holds between the critical sections of any interleaving of
appends, reads, single evictions and sweeps, as long as no two atoms have the same hash. -/
theorem representation_invariant {w : Threads ι H} (h : w.Reachable) (hd : w.Distinct) :
    w.cache.Represents := by
  refine h.inv.balanced.represents h.inv.exact ?_
  rw [Distinct, List.map_append] at hd
  exact (List.nodup_append.1 hd).2.1

end Threads

section Instances

local instance wideHashing : Hashing Str := ⟨id, id, fun _ => 0⟩

/-- Two appends to `k` have minted their atoms, and the second one has inserted its own. -/
def overtaken : Threads Unit Str :=
  let empty : ShardedFrontierCache Unit Str := .new 0
  let first := empty.mint 0 (.eConst (.vString (str "a"))) (str "k") zeroTime
  let second := { empty with clock := 1 }.mint 0 (.eConst (.vString (str "b"))) (str "k") zeroTime
  ⟨({ empty with clock := 2 }.insertAtom second).2.1, [first], [second]⟩

theorem overtaken_reachable : overtaken.Reachable :=
  ⟨0, .tail (.tail (.tail .refl (.mint 0 (.eConst (.vString (str "a"))) (str "k") zeroTime))
    (.mint 0 (.eConst (.vString (str "b"))) (str "k") zeroTime)) (.insert [] _ _ rfl)⟩

theorem representation_invariant_overtaken :
    overtaken.Reachable ∧ overtaken.Distinct ∧ overtaken.cache.Represents :=
  have hd : overtaken.Distinct := by
    unfold Threads.Distinct
    decide +kernel
  ⟨overtaken_reachable, hd, Threads.representation_invariant overtaken_reachable hd⟩

end Instances

end Wavicle.Storage
