import Wavicle.Storage.Representation
import Wavicle.Lib.Heaviest

/-! # Does a write survive its own eviction?

An append that reaches the memory ceiling evicts the least recently used path of the shard with the most bytes,
until the target is met. -/

namespace Wavicle.Storage

open Lib Wavicle.Core List

variable {ι H : Type}

theorem estimateAtomBytes_pos (path : Str) (atom : CausalAtom ι H) : 0 < estimateAtomBytes path atom := by
  unfold estimateAtomBytes
  split <;> omega

/-! ### Shards as queues -/

namespace FrontierShard

/-- The paths of the LRU list with their bytes, the most recently used one first. -/
def queue (s : FrontierShard ι H) : List (Str × ℤ) :=
  s.lruPaths.map fun p => (p, (s.entries.lookup p).elim 0 (estimateAtomBytes p))

theorem queue_eq_nil {s : FrontierShard ι H} : s.queue = [] ↔ s.lruList.elems = [] := by
  simp [queue, lruPaths]

theorem length_queue (s : FrontierShard ι H) : s.queue.length = s.lruList.len := by
  simp [queue, lruPaths, LinkedList.len]

variable {s s' : FrontierShard ι H}

theorem mem_lruPaths_of_queue {x : Str × ℤ} (hx : x ∈ s.queue) : x.1 ∈ s.lruPaths := by
  obtain ⟨p, hp, rfl⟩ := mem_map.1 hx
  exact hp

theorem Sound.mem_lruPaths_iff (h : s.Sound) {p : Str} : p ∈ s.lruPaths ↔ s.entries.lookup p ≠ none := by
  rw [h.mem_lruPaths, ne_eq, ne_eq, h.same]

theorem Sound.queue_pos (h : s.Sound) : ∀ x ∈ s.queue, 0 < x.2 := by
  intro x hx
  obtain ⟨p, hp, rfl⟩ := mem_map.1 hx
  obtain ⟨atom, hatom⟩ := Option.ne_none_iff_exists'.1 (h.mem_lruPaths_iff.1 hp)
  simp only [hatom, Option.elim_some]
  exact estimateAtomBytes_pos p atom

theorem Sound.weight_queue (h : s.Sound) : weight (·.2) s.queue = s.bytes := by
  have hperm : s.lruPaths.Perm s.entries.keys := by
    refine (perm_ext_iff_of_nodup h.nodup_lruPaths s.entries.keys_nodup).2 fun p => ?_
    rw [h.mem_lruPaths_iff, ne_eq, AList.lookup_eq_none, not_not]
    rfl
  have hsizes : s.entries.keys.map (fun p => (s.entries.lookup p).elim 0 (estimateAtomBytes p)) =
      s.entries.entries.map fun e => estimateAtomBytes e.1 e.2 := by
    rw [AList.keys, List.keys, map_map]
    refine map_congr_left fun e he => ?_
    have hlookup : s.entries.lookup e.1 = some e.2 := GoMap.lookup_eq_some.2 he
    simp only [Function.comp_apply, hlookup, Option.elim_some]
  have hbytes : s.bytes = (s.entries.entries.map fun e => estimateAtomBytes e.1 e.2).sum := h.bytes_eq
  rw [weight, queue, map_map, hbytes, ← hsizes]
  exact (hperm.map _).sum_eq

variable [DecidableEq H]

theorem Sound.queue_evictOldest (h : s.Sound) {freed : ℤ} (hs : s.evictOldest = some (s', freed)) :
    s'.queue = s.queue.dropLast := by
  unfold FrontierShard.evictOldest at hs
  cases hback : s.lruList.back with
  | none =>
    rw [hback] at hs
    cases hs
  | some last =>
    obtain ⟨elem, path⟩ := last
    rw [hback] at hs
    dsimp only at hs
    have hmem := LinkedList.mem_of_back hback
    have hpaths : (s.lruList.remove elem).elems.map (·.2) = s.lruPaths.dropLast := by
      rw [h.wf.remove_back hback, lruPaths, map_dropLast]
    have hgone : path ∉ s.lruPaths.dropLast := by
      rw [← hpaths]
      intro hp
      obtain ⟨⟨e, p⟩, hx, rfl⟩ := mem_map.1 hp
      obtain ⟨hx, hne⟩ := LinkedList.mem_remove.1 hx
      have hlookup := (h.nodes p e).2 hx
      rw [(h.nodes p elem).2 hmem] at hlookup
      exact hne (Option.some.inj hlookup).symm
    have hpath : s.entries.lookup path ≠ none :=
      h.mem_lruPaths_iff.1 (mem_map.2 ⟨_, hmem, rfl⟩)
    cases hatom : s.entries.lookup path with
    | none => exact absurd hatom hpath
    | some atom =>
      rw [hatom] at hs
      obtain ⟨rfl, -⟩ := Prod.mk.inj (Option.some.inj hs)
      rw [queue, queue, lruPaths, hpaths, ← map_dropLast]
      refine map_congr_left fun p hp => ?_
      have hne : p ≠ path := fun heq => hgone (heq ▸ hp)
      rw [GoMap.lookup_erase, if_neg hne]

theorem evictOldest_eq_none : s.evictOldest = none ↔ s.queue = [] := by
  rw [queue_eq_nil, ← List.getLast?_eq_none_iff]
  unfold FrontierShard.evictOldest LinkedList.back
  cases hback : s.lruList.elems.getLast? with
  | none => simp
  | some last =>
    refine iff_of_false ?_ (by simp)
    dsimp only
    split
    · simp
    · simp

theorem head_queue_assign (s : FrontierShard ι H) (path : Str) (atom : CausalAtom ι H) :
    (s.assign path atom).queue.head? = some (path, estimateAtomBytes path atom) := by
  have hlookup : (s.assign path atom).entries.lookup path = some atom :=
    (GoMap.lookup_insert s.entries path path atom).trans (if_pos rfl)
  have hpaths : (s.assign path atom).lruPaths = path :: s.lruPaths := rfl
  rw [queue, hpaths, map_cons, hlookup]
  rfl

end FrontierShard

/-! ### Rounds -/

namespace ShardedFrontierCache

variable [DecidableEq H] [Hashing H] {f f' : ShardedFrontierCache ι H}

def queues (f : ShardedFrontierCache ι H) (i : Fin 32) : List (Str × ℤ) := (f.shards i).queue

omit [DecidableEq H] [Hashing H] in
theorem Balanced.positive (h : f.Balanced) : Positive (·.2) f.queues := fun i => (h.sound i).queue_pos

omit [DecidableEq H] [Hashing H] in
theorem Balanced.totalWeight (h : f.Balanced) : totalWeight (·.2) f.queues = f.currentBytes := by
  rw [h.currentBytes_eq]
  exact Finset.sum_congr rfl fun i _ => (h.sound i).weight_queue

theorem mostLoaded_scan {b : Fin 32 → ℤ} (hb : ∀ i, 0 ≤ b i) (l : List (Fin 32)) (hl : l.Pairwise (· < ·)) :
    (l = [] ∧ l.foldl (fun best i => if b i > best.1 then (b i, some i) else best) (-1, none) =
        ((-1, none) : ℤ × Option (Fin 32))) ∨
    ∃ i ∈ l, l.foldl (fun best i => if b i > best.1 then (b i, some i) else best) (-1, none) =
        (b i, some i) ∧ ∀ j ∈ l, b j ≤ b i ∧ (j < i → b j < b i) := by
  induction l using List.reverseRecOn with
  | nil => exact .inl ⟨rfl, rfl⟩
  | append_singleton l k ih =>
    obtain ⟨hl, -, hk⟩ := pairwise_append.1 hl
    right
    rw [foldl_append, foldl_cons, foldl_nil]
    rcases ih hl with ⟨rfl, hbest⟩ | ⟨i, hi, hbest, hmax⟩
    · have hgt : b k > -1 := by have := hb k; omega
      refine ⟨k, by simp, ?_, by simp⟩
      rw [hbest]
      exact if_pos hgt
    · rw [hbest]
      by_cases hgt : b k > b i
      · refine ⟨k, by simp, if_pos hgt, fun j hj => ?_⟩
        rcases mem_append.1 hj with hj | hj
        · have := (hmax j hj).1
          exact ⟨by omega, fun _ => by omega⟩
        · obtain rfl := mem_singleton.1 hj
          exact ⟨le_rfl, fun hlt => absurd hlt (lt_irrefl j)⟩
      · refine ⟨i, mem_append_left _ hi, if_neg hgt, fun j hj => ?_⟩
        rcases mem_append.1 hj with hj | hj
        · exact hmax j hj
        · obtain rfl := mem_singleton.1 hj
          exact ⟨by omega, fun hlt => absurd (hk i hi j (.head _)) (lt_asymm hlt)⟩

omit [DecidableEq H] [Hashing H] in
theorem Balanced.bytes_nonneg (h : f.Balanced) (i : Fin 32) : 0 ≤ (f.shards i).bytes := by
  rw [← (h.sound i).weight_queue]
  refine sum_nonneg fun x hx => ?_
  obtain ⟨y, hy, rfl⟩ := mem_map.1 hx
  exact ((h.sound i).queue_pos y hy).le

omit [DecidableEq H] [Hashing H] in
theorem Balanced.mostLoaded (h : f.Balanced) :
    ∃ i, f.mostLoaded = ((f.shards i).bytes, some i) ∧ Heaviest (·.2) f.queues i := by
  rcases mostLoaded_scan h.bytes_nonneg (List.finRange 32) (pairwise_lt_finRange 32) with
    ⟨hnil, -⟩ | ⟨i, -, hbest, hmax⟩
  · cases hnil
  · refine ⟨i, hbest, fun j => ?_⟩
    have hj := hmax j (mem_finRange j)
    rw [← (h.sound i).weight_queue, ← (h.sound j).weight_queue] at hj
    exact hj

section

omit [Hashing H]

theorem Balanced.evictRound (h : f.Balanced) : (f.evictRound = none ∧ ∀ j, f.queues j = []) ∨
    ∃ f' i, f.evictRound = some f' ∧ f'.Balanced ∧ Heaviest (·.2) f.queues i ∧ f.queues i ≠ [] ∧
      f'.queues = Function.update f.queues i (f.queues i).dropLast := by
  obtain ⟨i, hmost, hheaviest⟩ := h.mostLoaded
  have hweight := (h.sound i).weight_queue
  unfold ShardedFrontierCache.evictRound
  rw [hmost]
  dsimp only
  split_ifs with hle
  · refine .inl ⟨rfl, fun j => ?_⟩
    -- a queue that is not empty has a positive weight
    cases hj : f.queues j with
    | nil => rfl
    | cons x rest =>
      have hpos : 0 < x.2 := h.positive j x (by rw [hj]; exact mem_cons_self)
      have hsize := h.positive.size_le_weight hj
      have hmax : weight (·.2) (f.queues j) ≤ weight (·.2) (f.shards i).queue := (hheaviest j).1
      omega
  · have hne : f.queues i ≠ [] := fun hnil => by
      have hzero : weight (·.2) (f.shards i).queue = 0 := by
        rw [show (f.shards i).queue = [] from hnil]
        rfl
      omega
    cases hevict : (f.shards i).evictOldest with
    | none => exact absurd (FrontierShard.evictOldest_eq_none.1 hevict) hne
    | some out =>
      obtain ⟨s, freed⟩ := out
      refine .inr ⟨_, i, rfl, h.evict hevict, hheaviest, hne, funext fun j => ?_⟩
      by_cases hj : j = i
      · subst hj
        rw [Function.update_self]
        change (Function.update f.shards j s j).queue = _
        rw [Function.update_self]
        exact (h.sound j).queue_evictOldest hevict
      · rw [Function.update_of_ne hj]
        change (Function.update f.shards i s j).queue = _
        rw [Function.update_of_ne hj]
        rfl

theorem Balanced.evictRounds (h : f.Balanced) (target : ℤ) {fuel : ℕ}
    (hfuel : ∑ i, (f.queues i).length ≤ fuel) : (evictRounds target fuel f).Balanced ∧
    Relation.ReflTransGen (DropsHeaviest (·.2) target) f.queues (evictRounds target fuel f).queues ∧
    ∀ next, ¬ DropsHeaviest (·.2) target (evictRounds target fuel f).queues next := by
  induction fuel generalizing f with
  | zero =>
    refine ⟨h, .refl, ?_⟩
    rintro next ⟨-, i, -, hne, -⟩
    have hzero := (Finset.sum_eq_zero_iff.1 (Nat.le_zero.1 hfuel)) i (Finset.mem_univ i)
    exact hne (length_eq_zero_iff.1 hzero)
  | succ fuel ih =>
    unfold ShardedFrontierCache.evictRounds
    split_ifs with hle
    · refine ⟨h, .refl, ?_⟩
      rintro next ⟨hlt, -⟩
      rw [h.totalWeight] at hlt
      omega
    · rcases h.evictRound with ⟨hnone, hnil⟩ | ⟨f', i, hsome, hbal, hheaviest, hne, hqueues⟩
      · rw [hnone]
        refine ⟨h, .refl, ?_⟩
        rintro next ⟨-, i, -, hne, -⟩
        exact hne (hnil i)
      · rw [hsome]
        dsimp only
        have hstep : DropsHeaviest (·.2) target f.queues f'.queues :=
          ⟨by rw [h.totalWeight]; omega, i, hheaviest, hne, hqueues⟩
        split_ifs with hempty
        · refine ⟨hbal, .single hstep, ?_⟩
          rintro next ⟨-, j, -, hj, -⟩
          have hlen := all_eq_true.1 hempty j (mem_finRange j)
          rw [decide_eq_true_eq, ← FrontierShard.length_queue] at hlen
          exact hj (length_eq_zero_iff.1 hlen)
        · have hless : ∑ j, (f'.queues j).length < ∑ j, (f.queues j).length := by
            have hpos := length_pos_iff.2 hne
            refine Finset.sum_lt_sum (fun j _ => ?_) ⟨i, Finset.mem_univ i, ?_⟩
            · exact (isPrefix_of_drops (.single hstep) j).length_le
            · rw [hqueues, Function.update_self, length_dropLast]
              omega
          obtain ⟨hbal', hrun, hend⟩ := ih hbal (by omega)
          exact ⟨hbal', .head hstep hrun, hend⟩

theorem Balanced.evictToTarget (h : f.Balanced) (target : ℤ) : (f.evictToTarget target).Balanced ∧
    Relation.ReflTransGen (DropsHeaviest (·.2) target) f.queues (f.evictToTarget target).queues ∧
    ∀ next, ¬ DropsHeaviest (·.2) target (f.evictToTarget target).queues next := by
  refine h.evictRounds target (le_of_eq ?_)
  rw [Fin.sum_univ_def]
  exact congrArg List.sum (map_congr_left fun i _ => (f.shards i).length_queue)

end

omit [DecidableEq H] in
theorem Balanced.resident_ne_none (h : f.Balanced) {path : Str} :
    f.resident path ≠ none ↔ path ∈ (f.shard path).lruPaths :=
  ((h.sound _).mem_lruPaths_iff).symm

theorem head_queues_replace (f : ShardedFrontierCache ι H) (atom : CausalAtom ι H) :
    ((f.replace atom).queues (shardFor H atom.path)).head? =
      some (atom.path, estimateAtomBytes atom.path atom) := by
  unfold ShardedFrontierCache.replace queues setShard
  dsimp only
  cases f.resident atom.path with
  | none =>
    dsimp only
    rw [Function.update_self]
    exact FrontierShard.head_queue_assign ..
  | some old =>
    dsimp only
    rw [Function.update_self]
    exact FrontierShard.head_queue_assign ..

theorem Balanced.resident_evictToTarget (h : f.Balanced) (atom : CausalAtom ι H) (target : ℤ) :
    ((f.replace atom).evictToTarget target).resident atom.path ≠ none ↔
      ∑ j, share (·.2) (estimateAtomBytes atom.path atom) (shardFor H atom.path) (f.replace atom).queues j ≤
        target := by
  have hhead := head_queues_replace f atom
  have hreplace := h.replace atom
  obtain ⟨hbal, hrun, hend⟩ := hreplace.evictToTarget target
  rw [← ne_nil_iff_of_ended hrun hend hreplace.positive hhead, hbal.resident_ne_none]
  constructor
  · intro hmem hnil
    rw [queues, FrontierShard.queue, map_eq_nil_iff] at hnil
    rw [shard, hnil] at hmem
    cases hmem
  · intro hne
    -- the first path of what is left is the first path of all
    obtain ⟨x, rest, hx⟩ := exists_cons_of_ne_nil hne
    obtain ⟨more, hmore⟩ := isPrefix_of_drops hrun (shardFor H atom.path)
    rw [← hmore, hx, cons_append, List.head?_cons] at hhead
    have hmem : x ∈ (((f.replace atom).evictToTarget target).shard atom.path).queue := by
      change x ∈ ((f.replace atom).evictToTarget target).queues (shardFor H atom.path)
      rw [hx]
      exact mem_cons_self
    have hpath : x.1 = atom.path := congrArg (·.1) (Option.some.inj hhead)
    rw [← hpath]
    rw [← hpath] at hmem
    exact FrontierShard.mem_lruPaths_of_queue hmem

theorem Balanced.resident_enforced (h : f.Balanced) (atom : CausalAtom ι H) :
    (if (f.replace atom).overCeiling then (f.replace atom).evictToTarget (f.replace atom).target
      else f.replace atom).resident atom.path ≠ none ↔ (f.replace atom).overCeiling = false ∨
      ∑ j, share (·.2) (estimateAtomBytes atom.path atom) (shardFor H atom.path) (f.replace atom).queues j ≤
        (f.replace atom).target := by
  cases hover : (f.replace atom).overCeiling with
  | false =>
    refine iff_of_true ?_ (.inl rfl)
    rw [if_neg Bool.false_ne_true, (h.replace atom).resident_ne_none]
    exact FrontierShard.mem_lruPaths_of_queue (mem_of_mem_head? (head_queues_replace f atom))
  | true =>
    rw [if_pos rfl, h.resident_evictToTarget]
    simp

theorem insertAtom_of_keeps_eq_none {atom : CausalAtom ι H}
    (hnew : ∀ old, f.resident atom.path = some old → keeps old atom = none) :
    f.insertAtom atom = (atom.hash, f.replace atom, true) := by
  unfold insertAtom
  cases hold : f.resident atom.path with
  | none => rfl
  | some old =>
    dsimp only
    rw [hnew old hold]

theorem Balanced.resident_appendAtom_iff (h : f.Balanced) (now : Time) (expr : Expr ι H) (path : Str)
    (expiresAt : Time) (hnew : ∀ old, f.resident path = some old →
      keeps old (f.mint now expr path expiresAt) = none) :
    (f.appendAtom now expr path expiresAt).2.resident path ≠ none ↔
      (f.inserted now expr path expiresAt).overCeiling = false ∨
      ∑ j, share (·.2) (estimateAtomBytes path (f.mint now expr path expiresAt)) (shardFor H path)
        (f.inserted now expr path expiresAt).queues j ≤ (f.inserted now expr path expiresAt).target := by
  have hinsert : ({ f with clock := f.clock + 1 } : ShardedFrontierCache ι H).insertAtom
      (f.mint now expr path expiresAt) = ((f.mint now expr path expiresAt).hash,
        ({ f with clock := f.clock + 1 } : ShardedFrontierCache ι H).replace
          (f.mint now expr path expiresAt), true) := insertAtom_of_keeps_eq_none hnew
  unfold appendAtom inserted
  dsimp only
  rw [hinsert]
  exact (h.tick _).resident_enforced (f.mint now expr path expiresAt)

end ShardedFrontierCache

/-! ### Appends -/

namespace Threads

variable [DecidableEq H] [Hashing H] {w w' : Threads ι H}

def OnTime (w : Threads ι H) : Prop := ∀ a ∈ w.minted ++ w.inserted, a.logicalClock ≤ w.cache.clock

theorem OnTime.step (hw : w.OnTime) (h : Step w w') : w'.OnTime := by
  cases h with
  | mint now expr path expiresAt =>
    intro a ha
    rcases mem_cons.1 ha with rfl | ha
    · exact le_rfl
    · exact (hw a ha).trans (Nat.le_succ _)
  | insert before after atom hminted =>
    intro a ha
    rw [ShardedFrontierCache.clock_insertAtom]
    refine hw a ?_
    rw [hminted]
    simp only [mem_append, mem_cons] at ha ⊢
    rcases ha with (ha | ha) | ha | ha
    · exact .inl (.inl ha)
    · exact .inl (.inr (.inr ha))
    · exact .inl (.inr (.inl ha))
    · exact .inr ha
  | touch now path =>
    intro a ha
    rw [ShardedFrontierCache.clock_getCurrent]
    exact hw a ha
  | evict victim s freed hs => exact hw
  | sweep now i => exact hw

theorem Reachable.onTime (h : w.Reachable) : w.OnTime := by
  obtain ⟨maxBytes, hrun⟩ := h
  induction hrun with
  | refl => exact forall_mem_nil _
  | tail _ hstep ih => exact ih.step hstep

/-- **A write survives its own eviction** exactly if the ceiling is not reached, or the new entry fits the
target together with what the other shards hold in fewer bytes than it has, or in as many if they come after
its shard. The atom goes in if it is not a duplicate of the resident one. -/
theorem resident_append_iff (hw : w.Reachable) (now : Time) (expr : Expr ι H) (path : Str)
    (expiresAt : Time) (hnew : ∀ old, w.cache.resident path = some old →
      old.hash ≠ (w.cache.mint now expr path expiresAt).hash →
      sameAtomContent old (w.cache.mint now expr path expiresAt) = false) :
    (w.cache.appendAtom now expr path expiresAt).2.resident path ≠ none ↔
      (w.cache.inserted now expr path expiresAt).overCeiling = false ∨
      ∑ j, share (·.2) (estimateAtomBytes path (w.cache.mint now expr path expiresAt)) (shardFor H path)
        (w.cache.inserted now expr path expiresAt).queues j ≤
          (w.cache.inserted now expr path expiresAt).target := by
  refine hw.inv.balanced.resident_appendAtom_iff now expr path expiresAt fun old hold => ?_
  have hclock : ¬ old.logicalClock > (w.cache.mint now expr path expiresAt).logicalClock := by
    have hle := hw.onTime old (mem_append_right _ (hw.inv.exact.logged _ _ _ hold))
    change ¬ old.logicalClock > w.cache.clock + 1
    omega
  unfold ShardedFrontierCache.keeps
  rw [if_neg hclock, if_neg]
  rintro ⟨hhash, hsame⟩
  rw [hnew old hold hhash] at hsame
  cases hsame

end Threads

section Instances

/-- xxHash64 puts the path `a` into shard 27 and the path `c` into shard 13. -/
local instance spillHashing : Hashing Str := ⟨id, id, fun s => if s = str "a" then 27 else 13⟩

/-- A cache of 1000 bytes, after an append of a string of length `n` to the path `a`. -/
def heldA (n : ℕ) : Threads Unit Str :=
  let empty : ShardedFrontierCache Unit Str := .new 1000
  let atom := empty.mint 0 (.eConst (.vString (List.replicate n 97))) (str "a") zeroTime
  ⟨({ empty with clock := 1 }.insertAtom atom).2.1, [], [atom]⟩

theorem heldA_reachable (n : ℕ) : (heldA n).Reachable :=
  ⟨1000, .tail (.tail .refl (.mint 0 (.eConst (.vString (List.replicate n 97))) (str "a") zeroTime))
    (.insert [] [] _ rfl)⟩

def stringC (n : ℕ) : Expr Unit Str := .eConst (.vString (List.replicate n 99))

/-- The path `a` has 401 bytes and the new path `c` has 500, in other shards: the new one is evicted. -/
theorem own_write_evicted : (heldA 164).Reachable ∧ (heldA 164).cache.resident (str "c") = none ∧
    estimateAtomBytes (str "c") ((heldA 164).cache.mint 0 (stringC 263) (str "c") zeroTime) ≤
      (heldA 164).cache.target ∧
    ((heldA 164).cache.appendAtom 0 (stringC 263) (str "c") zeroTime).2.resident (str "c") = none := by
  refine ⟨heldA_reachable 164, ?_, ?_, ?_⟩
  · decide +kernel
  · decide +kernel
  · decide +kernel

theorem resident_append_iff_older_heavier :
    ((heldA 264).cache.appendAtom 0 (stringC 163) (str "c") zeroTime).2.resident (str "c") ≠ none := by
  refine (Threads.resident_append_iff (heldA_reachable 264) 0 (stringC 163) (str "c") zeroTime ?_).2
    (.inr ?_)
  · intro old hold
    have hnone : (heldA 264).cache.resident (str "c") = none := by decide +kernel
    cases hnone.symm.trans hold
  · decide +kernel

end Instances

end Wavicle.Storage
