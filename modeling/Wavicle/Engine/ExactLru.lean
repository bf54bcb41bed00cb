import Wavicle.Engine.ProofCache
import Wavicle.Lib.Recency

/-! # The proof cache is an exact LRU cache

A shard stands for the list of its entries, the most recently used one first (`Refines`).

* `uses`: the keys that were set or hit, the newest first; `Standing`: what was set last and not deleted.
* `tracks_run`: after any calls a shard has the last used keys, as many as fit.
* `exactLru`: what `Get` finds after any calls. -/

namespace Wavicle.Engine

open Lib Wavicle.Core Storage List

variable {ι H : Type} [DecidableEq H]

namespace CacheShard

/-- A shard of capacity `c` with the entries `l`. -/
structure Refines (c : ℕ) (l : List (H × MaterializedProof ι H)) (s : CacheShard ι H) : Prop where
  capacity : s.capacity = c
  elems : s.lru.elems.map (·.2) = l
  wf : s.lru.WellFormed
  linked : ∀ key elem, s.entries.lookup key = some elem ↔ ∃ proof, (elem, key, proof) ∈ s.lru.elems
  bounded : l.length ≤ c

theorem refines_new (c : ℕ) : Refines c [] (⟨∅, .new, c⟩ : CacheShard ι H) where
  capacity := rfl
  elems := rfl
  wf := LinkedList.wellFormed_new
  linked key elem := by simp [LinkedList.new]
  bounded := Nat.zero_le c

section

variable {c : ℕ} {l : List (H × MaterializedProof ι H)} {s : CacheShard ι H} {key : H} {elem : ℕ}
  {proof : MaterializedProof ι H}

theorem Refines.id_iff (h : s.Refines c l) (hk : s.entries.lookup key = some elem)
    {x : ℕ × H × MaterializedProof ι H} (hx : x ∈ s.lru.elems) : x.1 = elem ↔ x.2.1 = key := by
  obtain ⟨proof, hmem⟩ := (h.linked key elem).1 hk
  constructor
  · intro hid
    rw [h.wf.eq_of_id hx hmem hid]
  · intro hkey
    have hlookup : s.entries.lookup key = some x.1 := (h.linked key x.1).2 ⟨x.2.2, hkey ▸ hx⟩
    exact Option.some.inj (hlookup.symm.trans hk)

theorem Refines.nodup (h : s.Refines c l) : (l.map (·.1)).Nodup := by
  rw [← h.elems, map_map]
  refine List.Nodup.map_on (fun x hx y hy hkey => ?_) (List.Nodup.of_map _ h.wf.nodup)
  have hlookup : s.entries.lookup x.2.1 = some x.1 := (h.linked x.2.1 x.1).2 ⟨x.2.2, hx⟩
  exact h.wf.eq_of_id hx hy ((h.id_iff hlookup hy).2 hkey.symm).symm

theorem Refines.mem_iff (h : s.Refines c l) :
    (key, proof) ∈ l ↔ ∃ elem, s.entries.lookup key = some elem ∧ (elem, key, proof) ∈ s.lru.elems := by
  rw [← h.elems]
  constructor
  · intro hmem
    obtain ⟨x, hx, heq⟩ := mem_map.1 hmem
    obtain ⟨e, k, p⟩ := x
    obtain ⟨rfl, rfl⟩ := Prod.mk.inj heq
    exact ⟨e, (h.linked k e).2 ⟨p, hx⟩, hx⟩
  · rintro ⟨e, -, hmem⟩
    exact mem_map.2 ⟨_, hmem, rfl⟩

theorem Refines.lookup_eq_none (h : s.Refines c l) : s.entries.lookup key = none ↔ key ∉ l.map (·.1) := by
  constructor
  · intro hnone hmem
    obtain ⟨entry, hentry, rfl⟩ := mem_map.1 hmem
    obtain ⟨elem, hk, -⟩ := h.mem_iff.1 hentry
    cases hnone.symm.trans hk
  · intro hkey
    refine Option.eq_none_iff_forall_ne_some.2 fun elem hk => hkey ?_
    obtain ⟨proof, hmem⟩ := (h.linked key elem).1 hk
    exact mem_map.2 ⟨(key, proof), h.mem_iff.2 ⟨elem, hk, hmem⟩, rfl⟩

theorem Refines.rest (h : s.Refines c l) (hk : s.entries.lookup key = some elem) :
    (s.lru.elems.filter (·.1 ≠ elem)).map (·.2) = l.filter (·.1 ≠ key) := by
  rw [← h.elems, filter_map]
  congr 1
  refine filter_congr fun x hx => ?_
  simp [h.id_iff hk hx]

/-! ### The methods -/

theorem Refines.front (h : s.Refines c l) (hk : s.entries.lookup key = some elem)
    (proof : MaterializedProof ι H) :
    Refines c (touch key proof l) { s with
      lru := ⟨(elem, key, proof) :: s.lru.elems.filter (·.1 ≠ elem), s.lru.next⟩ } := by
  obtain ⟨old, hold⟩ := (h.linked key elem).1 hk
  refine ⟨h.capacity, ?_, ⟨?_, fun x hx => ?_⟩, fun key' elem' => ?_, ?_⟩
  · rw [map_cons, h.rest hk]
    rfl
  · refine nodup_cons.2 ⟨fun hmem => ?_, h.wf.nodup.sublist (filter_sublist.map _)⟩
    obtain ⟨x, hx, hid⟩ := mem_map.1 hmem
    simp only [mem_filter, decide_eq_true_eq] at hx
    exact hx.2 hid
  · rcases mem_cons.1 hx with rfl | hx
    · exact h.wf.fresh (elem, key, old) hold
    · exact h.wf.fresh x (mem_filter.1 hx).1
  · rw [h.linked]
    simp only [mem_cons, mem_filter, decide_eq_true_eq]
    by_cases helem : elem' = elem
    · subst helem
      constructor
      · rintro ⟨p, hp⟩
        obtain rfl := (h.id_iff hk hp).1 rfl
        exact ⟨proof, .inl rfl⟩
      · rintro ⟨p, hp | hp⟩
        · obtain ⟨-, rfl, -⟩ := hp
          exact ⟨old, hold⟩
        · exact absurd rfl hp.2
    · refine exists_congr fun p => ⟨fun hp => .inr ⟨hp, helem⟩, fun hp => ?_⟩
      rcases hp with hp | hp
      · exact absurd (congrArg (·.1) hp) helem
      · exact hp.1
  · have hkey : key ∈ l.map (·.1) := mem_map.2 ⟨_, h.mem_iff.2 ⟨elem, hk, hold⟩, rfl⟩
    rw [length_touch h.nodup hkey]
    exact h.bounded

theorem Refines.drop (h : s.Refines c l) (hk : s.entries.lookup key = some elem) :
    Refines c (l.filter (·.1 ≠ key))
      { s with entries := s.entries.erase key, lru := s.lru.remove elem } := by
  refine ⟨h.capacity, h.rest hk, h.wf.remove elem, fun key' elem' => ?_,
    (length_filter_le _ _).trans h.bounded⟩
  rw [GoMap.lookup_erase]
  split_ifs with hkey
  · refine iff_of_false (by simp) ?_
    rintro ⟨p, hp⟩
    obtain ⟨hmem, hne⟩ := LinkedList.mem_remove.1 hp
    exact hne ((h.id_iff hk hmem).2 hkey)
  · rw [h.linked]
    refine exists_congr fun p => ⟨fun hp => LinkedList.mem_remove.2 ⟨hp, fun helem => ?_⟩,
      fun hp => (LinkedList.mem_remove.1 hp).1⟩
    exact hkey ((h.id_iff hk hp).1 helem)

theorem Refines.push (h : s.Refines c l) (hkey : key ∉ l.map (·.1)) (hlen : l.length < c)
    (proof : MaterializedProof ι H) :
    Refines c ((key, proof) :: l) { s with
      entries := s.entries.insert key s.lru.next
      lru := (s.lru.pushFront (key, proof)).2 } := by
  refine ⟨h.capacity, ?_, h.wf.pushFront _, fun key' elem' => ?_, hlen⟩
  · rw [← h.elems]
    rfl
  · rw [GoMap.lookup_insert]
    simp only [LinkedList.mem_pushFront, Prod.mk.injEq]
    split_ifs with heq
    · subst heq
      constructor
      · intro helem
        exact ⟨proof, .inl ⟨(Option.some.inj helem).symm, rfl, rfl⟩⟩
      · rintro ⟨p, ⟨rfl, -⟩ | hp⟩
        · rfl
        · have hnone := h.lookup_eq_none.2 hkey
          cases hnone.symm.trans ((h.linked key' elem').2 ⟨p, hp⟩)
    · rw [h.linked]
      refine exists_congr fun p => ⟨.inr, fun hp => hp.resolve_left fun hnew => heq hnew.2.1⟩

theorem Refines.get_hit (h : s.Refines c l) (hmem : (key, proof) ∈ l) :
    (s.get key).1 = some proof ∧ Refines c (touch key proof l) (s.get key).2 := by
  obtain ⟨elem, hk, helem⟩ := h.mem_iff.1 hmem
  have hfind : s.find key = some (elem, proof) := by
    have hvalue : s.lru.elems.find? (·.1 = elem) = some (elem, key, proof) := by
      cases hf : s.lru.elems.find? (·.1 = elem) with
      | none => simpa using List.find?_eq_none.1 hf _ helem
      | some x =>
        have hid : x.1 = elem := by simpa using List.find?_some hf
        rw [h.wf.eq_of_id (mem_of_find?_eq_some hf) helem hid]
    rw [find, hk, Option.bind_some, LinkedList.value, hvalue]
    rfl
  rw [get, hfind]
  dsimp only
  rw [h.wf.moveToFront_eq helem]
  exact ⟨rfl, h.front hk proof⟩

theorem Refines.get_miss (h : s.Refines c l) (hkey : key ∉ l.map (·.1)) : s.get key = (none, s) := by
  rw [get, find, h.lookup_eq_none.2 hkey, Option.bind_none]

theorem Refines.makeRoom (h : s.Refines c l) : s.makeRoom.Refines c (l.take (c - 1)) := by
  have hlen : s.lru.len = l.length := by
    rw [← h.elems, length_map]
    rfl
  have hbound := h.bounded
  unfold CacheShard.makeRoom
  split_ifs with hfull
  · rw [h.capacity, hlen] at hfull
    cases hback : s.lru.back with
    | none =>
      have hnil : s.lru.elems = [] := List.getLast?_eq_none_iff.1 hback
      have hl : l = [] := by rw [← h.elems, hnil, map_nil]
      subst hl
      rw [take_nil]
      exact h
    | some last =>
      have hk : s.entries.lookup last.2.1 = some last.1 :=
        (h.linked _ _).2 ⟨last.2.2, LinkedList.mem_of_back hback⟩
      have hdrop := h.drop hk
      -- what is dropped is the last of the list
      have htake : l.take (c - 1) = l.filter (·.1 ≠ last.2.1) := by
        rw [← hdrop.elems, h.wf.remove_back hback, map_dropLast, h.elems, dropLast_eq_take]
        congr 1
        omega
      rw [htake]
      exact hdrop
  · rw [h.capacity, hlen] at hfull
    rw [take_of_length_le (by omega)]
    exact h

theorem Refines.set (h : s.Refines c l) (hc : 0 < c) (key : H) (proof : MaterializedProof ι H) :
    (s.set key proof).Refines c ((touch key proof l).take c) := by
  unfold CacheShard.set
  cases hk : s.entries.lookup key with
  | some elem =>
    obtain ⟨old, hold⟩ := (h.linked key elem).1 hk
    have hfront := h.front hk proof
    dsimp only
    rw [take_of_length_le hfront.bounded, h.wf.moveToFront_eq hold, LinkedList.setValue_front]
    exact hfront
  | none =>
    have hkey := h.lookup_eq_none.1 hk
    have htake : (touch key proof l).take c = (key, proof) :: l.take (c - 1) := by
      obtain ⟨c, rfl⟩ := Nat.exists_eq_add_of_lt hc
      rw [touch_of_not_mem hkey, zero_add, take_succ_cons, Nat.add_sub_cancel]
    rw [htake]
    refine h.makeRoom.push (fun hmem => hkey ?_) ?_ proof
    · exact (take_sublist (c - 1) l).map _ |>.mem hmem
    · rw [length_take]
      omega

theorem Refines.delete (h : s.Refines c l) (key : H) : (s.delete key).Refines c (l.filter (·.1 ≠ key)) := by
  unfold CacheShard.delete
  cases hk : s.entries.lookup key with
  | some elem => exact h.drop hk
  | none =>
    have hsame : l.filter (·.1 ≠ key) = l := by
      refine filter_eq_self.2 fun e he => decide_eq_true fun heq => ?_
      exact h.lookup_eq_none.1 hk (heq ▸ mem_map_of_mem he)
    rw [hsame]
    exact h

end

end CacheShard

/-! ### Runs -/

/-- A call of the proof cache. -/
inductive CacheCall (ι H : Type) where
  | get (key : H)
  | set (key : H) (proof : MaterializedProof ι H)
  | delete (key : H)

def CacheCall.key : CacheCall ι H → H
  | .get key | .set key _ | .delete key => key

namespace ProofCache

variable {n : ℕ} [NeZero n] [Hashing H]

def step (c : ProofCache n ι H) : CacheCall ι H → ProofCache n ι H
  | .get key => (c.get key).2
  | .set key proof => c.set key proof
  | .delete key => c.delete key

def run (c : ProofCache n ι H) (calls : List (CacheCall ι H)) : ProofCache n ι H := calls.foldl step c

def used (c : ProofCache n ι H) : CacheCall ι H → List H
  | .get key => if (c.get key).1.isSome then [key] else []
  | .set key _ => [key]
  | .delete _ => []

def uses (c : ProofCache n ι H) : List (CacheCall ι H) → List H
  | [] => []
  | call :: calls => (c.step call).uses calls ++ c.used call

theorem run_append (c : ProofCache n ι H) (calls : List (CacheCall ι H)) (call : CacheCall ι H) :
    c.run (calls ++ [call]) = (c.run calls).step call := by
  rw [run, foldl_append]
  rfl

theorem uses_append (c : ProofCache n ι H) (calls : List (CacheCall ι H)) (call : CacheCall ι H) :
    c.uses (calls ++ [call]) = (c.run calls).used call ++ c.uses calls := by
  induction calls generalizing c with
  | nil => simp [uses, run]
  | cons first calls ih => rw [cons_append, uses, ih, uses, append_assoc]; rfl

end ProofCache

/-- The proof of the key was set last, and the key was not deleted since. -/
def Standing (calls : List (CacheCall ι H)) (key : H) (proof : MaterializedProof ι H) : Prop :=
  ∃ before after, calls = before ++ .set key proof :: after ∧ ∀ call ∈ after, call.key = key → call = .get key

section

variable {calls : List (CacheCall ι H)} {key : H} {proof : MaterializedProof ι H}

section

omit [DecidableEq H]

theorem Standing.append (h : Standing calls key proof) {call : CacheCall ι H}
    (hcall : call.key = key → call = .get key) : Standing (calls ++ [call]) key proof := by
  obtain ⟨before, after, rfl, hafter⟩ := h
  refine ⟨before, after ++ [call], by simp, fun x hx => ?_⟩
  rcases mem_append.1 hx with hx | hx
  · exact hafter x hx
  · obtain rfl := mem_singleton.1 hx
    exact hcall

theorem standing_set (calls : List (CacheCall ι H)) (key : H) (proof : MaterializedProof ι H) :
    Standing (calls ++ [.set key proof]) key proof :=
  ⟨calls, [], rfl, forall_mem_nil _⟩

theorem Standing.not_deleted (h : Standing calls key proof) {before after : List (CacheCall ι H)}
    (hcalls : calls = before ++ .delete key :: after) : ∃ q, CacheCall.set key q ∈ after := by
  obtain ⟨before', after', heq, hafter⟩ := h
  rw [hcalls] at heq
  rcases append_eq_append_iff.1 heq with ⟨mid, -, hmid⟩ | ⟨mid, -, hmid⟩
  · cases mid with
    | nil => cases head_eq_of_cons_eq hmid
    | cons x mid =>
      refine ⟨proof, ?_⟩
      rw [(List.cons.inj hmid).2]
      exact mem_append_right _ (.head _)
  · cases mid with
    | nil => cases head_eq_of_cons_eq hmid
    | cons x mid =>
      have hmem : CacheCall.delete key ∈ after' := by
        rw [(List.cons.inj hmid).2]
        exact mem_append_right _ (.head _)
      cases hafter _ hmem rfl

end

end

namespace ProofCache

variable {n : ℕ} [NeZero n] [Hashing H] {c : ProofCache n ι H} {calls : List (CacheCall ι H)} {us : List H}
  {cap : ℕ}

/-- What a shard holds after some calls: standing proofs and, if nothing was deleted, those of the keys that
were used most recently. -/
structure Tracks (cap : ℕ) (calls : List (CacheCall ι H)) (us : List H) (c : ProofCache n ι H)
    (i : Fin n) (l : List (H × MaterializedProof ι H)) : Prop where
  refines : (c.shards i).Refines cap l
  shard : ∀ e ∈ l, shard e.1 = i
  standing : ∀ e ∈ l, Standing calls e.1 e.2
  exact : (∀ key, .delete key ∉ calls) → l.map (·.1) = (recent (us.filter (ProofCache.shard · = i))).take cap

variable {l : List (H × MaterializedProof ι H)} {call : CacheCall ι H}
  {proof : MaterializedProof ι H}

theorem Tracks.get_isSome {key : H} (h : Tracks cap calls us c (ProofCache.shard key) l) :
    (c.get key).1.isSome ↔ key ∈ l.map (·.1) := by
  constructor
  · intro hhit
    by_contra hkey
    have hget : (c.get key).1 = none := congrArg (·.1) (h.refines.get_miss hkey)
    rw [hget] at hhit
    cases hhit
  · intro hkey
    obtain ⟨⟨k, proof⟩, hmem, rfl⟩ := mem_map.1 hkey
    have hget : (c.get k).1 = some proof := (h.refines.get_hit hmem).1
    rw [hget]
    rfl

theorem Tracks.other {i j : Fin n} (h : Tracks cap calls us c i l) {s : CacheShard ι H}
    {used : List H} (hj : ProofCache.shard call.key = j) (hij : i ≠ j)
    (hused : ∀ key ∈ used, key = call.key) :
    Tracks cap (calls ++ [call]) (used ++ us) (c.setShard j s) i l where
  refines := by
    have hsame : (c.setShard j s).shards i = c.shards i := Function.update_of_ne hij _ _
    rw [hsame]
    exact h.refines
  shard := h.shard
  standing e he := (h.standing e he).append fun hkey => by
    have hshard := h.shard e he
    rw [← hkey, hj] at hshard
    exact absurd hshard.symm hij
  exact hdelete := by
    have hnone : used.filter (ProofCache.shard · = i) = [] := by
      refine filter_eq_nil_iff.2 fun key hkey => ?_
      rw [hused key hkey, hj]
      simpa using Ne.symm hij
    rw [filter_append, hnone, nil_append]
    exact h.exact fun key hmem => hdelete key (mem_append_left _ hmem)

theorem Tracks.touched {key : H} (h : Tracks cap calls us c (ProofCache.shard key) l)
    (hcap : 0 < cap) (hkey : call.key = key) {s : CacheShard ι H}
    (hs : s.Refines cap ((touch key proof l).take cap))
    (hproof : Standing (calls ++ [call]) key proof) :
    Tracks cap (calls ++ [call]) (key :: us) (c.setShard (ProofCache.shard key) s) (ProofCache.shard key)
      ((touch key proof l).take cap) where
  refines := by
    have hself : (c.setShard (ProofCache.shard key) s).shards (ProofCache.shard key) = s :=
      Function.update_self ..
    rwa [hself]
  shard e he := by
    rcases mem_touch.1 (mem_of_mem_take he) with rfl | ⟨he, -⟩
    · rfl
    · exact h.shard e he
  standing e he := by
    rcases mem_touch.1 (mem_of_mem_take he) with rfl | ⟨he, hne⟩
    · exact hproof
    · exact (h.standing e he).append fun heq => absurd (heq.symm.trans hkey) hne
  exact hdelete := by
    have hkeys := h.exact fun k hmem => hdelete k (mem_append_left _ hmem)
    have hfilter : (key :: us).filter (ProofCache.shard · = ProofCache.shard key) =
        key :: us.filter (ProofCache.shard · = (ProofCache.shard key : Fin n)) :=
      filter_cons_of_pos (by simp)
    rw [map_take, keys_touch, hkeys, take_recent_cons hcap, hfilter]

theorem Tracks.missed {key : H} (h : Tracks cap calls us c (ProofCache.shard key) l)
    (hkey : key ∉ l.map (·.1)) (hcall : call.key = key) :
    Tracks cap (calls ++ [call]) us (c.setShard (ProofCache.shard key) (c.shards (ProofCache.shard key)))
      (ProofCache.shard key) l where
  refines := by
    have hself : (c.setShard (ProofCache.shard key) (c.shards (ProofCache.shard key))).shards
        (ProofCache.shard key) = c.shards (ProofCache.shard key) := Function.update_self ..
    rw [hself]
    exact h.refines
  shard := h.shard
  standing e he := (h.standing e he).append fun heq => by
    exact absurd (mem_map.2 ⟨e, he, heq.symm.trans hcall⟩) hkey
  exact hdelete := h.exact fun k hmem => hdelete k (mem_append_left _ hmem)

theorem Tracks.step (hcap : 0 < cap) (h : ∀ i, ∃ l, Tracks cap calls us c i l) (call : CacheCall ι H)
    (i : Fin n) : ∃ l, Tracks cap (calls ++ [call]) (c.used call ++ us) (c.step call) i l := by
  obtain ⟨l, hl⟩ := h i
  by_cases hi : i = ProofCache.shard call.key
  · cases call with
    | get key =>
      obtain rfl : i = ProofCache.shard key := hi
      by_cases hkey : key ∈ l.map (·.1)
      · have hused : c.used (.get key) = [key] := if_pos (hl.get_isSome.2 hkey)
        obtain ⟨⟨k, proof⟩, hmem, rfl⟩ := mem_map.1 hkey
        obtain ⟨-, hs⟩ := hl.refines.get_hit hmem
        rw [← take_of_length_le hs.bounded] at hs
        rw [hused]
        exact ⟨_, hl.touched hcap rfl hs ((hl.standing _ hmem).append fun _ => rfl)⟩
      · have hused : c.used (.get key) = [] := if_neg fun hhit => hkey (hl.get_isSome.1 hhit)
        have hstep : c.step (.get key) =
            c.setShard (ProofCache.shard key) (c.shards (ProofCache.shard key)) :=
          congrArg (c.setShard _) (congrArg (·.2) (hl.refines.get_miss hkey))
        rw [hused, hstep]
        exact ⟨l, hl.missed hkey rfl⟩
    | set key proof =>
      obtain rfl : i = ProofCache.shard key := hi
      exact ⟨_, hl.touched hcap rfl (hl.refines.set hcap key proof) (standing_set calls key proof)⟩
    | delete key =>
      obtain rfl : i = ProofCache.shard key := hi
      refine ⟨l.filter (·.1 ≠ key), ?_, fun e he => ?_, fun e he => ?_, fun hdelete => ?_⟩
      · have hself : (c.delete key).shards (ProofCache.shard key) =
            (c.shards (ProofCache.shard key)).delete key := Function.update_self ..
        exact hself ▸ hl.refines.delete key
      · exact hl.shard e (mem_filter.1 he).1
      · obtain ⟨he, hne⟩ := mem_filter.1 he
        exact (hl.standing e he).append fun heq => absurd heq.symm (of_decide_eq_true hne)
      · exact absurd (mem_append_right _ (.head _)) (hdelete key)
  · refine ⟨l, ?_⟩
    cases call with
    | get key =>
      refine hl.other rfl hi fun k hk => ?_
      unfold used at hk
      dsimp only at hk
      split_ifs at hk
      · exact mem_singleton.1 hk
      · cases hk
    | set key proof => exact hl.other rfl hi fun k hk => mem_singleton.1 hk
    | delete key => exact hl.other rfl hi fun k hk => nomatch hk

theorem tracks_run (hcap : 0 < cap) (calls : List (CacheCall ι H)) (i : Fin n) :
    ∃ l, Tracks cap calls ((new n cap : ProofCache n ι H).uses calls) ((new n cap).run calls) i l := by
  induction calls using List.reverseRecOn generalizing i with
  | nil =>
    refine ⟨[], CacheShard.refines_new cap, forall_mem_nil _, forall_mem_nil _, fun _ => ?_⟩
    exact take_nil.symm
  | append_singleton calls call ih =>
    rw [uses_append, run_append]
    exact Tracks.step hcap ih call i

/-! ### The cache -/

theorem mem_uses_of_set {key : H} (c : ProofCache n ι H) (hset : .set key proof ∈ calls) :
    key ∈ c.uses calls := by
  induction calls generalizing c with
  | nil => cases hset
  | cons call calls ih =>
    rw [uses, mem_append]
    rcases mem_cons.1 hset with rfl | hset
    · exact .inr (.head _)
    · exact .inl (ih _ hset)

theorem exists_set_of_mem_uses (hcap : 0 < cap) {key : H} (calls : List (CacheCall ι H))
    (hkey : key ∈ (new n cap : ProofCache n ι H).uses calls) : ∃ proof, .set key proof ∈ calls := by
  induction calls using List.reverseRecOn with
  | nil => cases hkey
  | append_singleton calls call ih =>
    rw [uses_append, mem_append] at hkey
    rcases hkey with hkey | hkey
    · cases call with
      | get k =>
        unfold used at hkey
        dsimp only at hkey
        split_ifs at hkey with hhit
        · obtain rfl := mem_singleton.1 hkey
          obtain ⟨l, hl⟩ := tracks_run hcap calls (ProofCache.shard key : Fin n)
          obtain ⟨e, he, rfl⟩ := mem_map.1 (hl.get_isSome.1 hhit)
          obtain ⟨before, after, rfl, -⟩ := hl.standing e he
          exact ⟨e.2, by simp⟩
        · cases hkey
      | set k proof =>
        obtain rfl := mem_singleton.1 hkey
        exact ⟨proof, by simp⟩
      | delete k => cases hkey
    · obtain ⟨proof, hset⟩ := ih hkey
      exact ⟨proof, mem_append_left _ hset⟩

/-- **An exact LRU cache.** After any calls, the map and the list of a shard have the same keys, each once and
at most as many as the capacity. A hit is the proof that was set last, and there is none from a deletion to
the next `Set`. Without deletions, a key is hit exactly if it was set and fewer than `cap` other keys of its
shard were set or hit since it was last set or hit. -/
theorem exactLru (hcap : 0 < cap) (calls : List (CacheCall ι H)) :
    let c : ProofCache n ι H := (new n cap).run calls
    (∀ i, (c.shards i).entries.keys.Perm ((c.shards i).lru.elems.map (·.2.1)) ∧
      ((c.shards i).lru.elems.map (·.2.1)).Nodup ∧ (c.shards i).lru.len ≤ cap) ∧
    (∀ key proof, (c.get key).1 = some proof →
      ∃ before after, calls = before ++ .set key proof :: after ∧ ∀ q, .set key q ∉ after) ∧
    (∀ key before after, calls = before ++ .delete key :: after → (∀ q, .set key q ∉ after) →
      (c.get key).1 = none) ∧
    ((∀ key, .delete key ∉ calls) → ∀ key, (c.get key).1.isSome ↔
      (∃ proof, .set key proof ∈ calls) ∧
      ((((new n cap : ProofCache n ι H).uses calls).takeWhile (· ≠ key)).filter
        (shard · = (shard key : Fin n))).toFinset.card < cap) := by
  intro c
  have htracks := tracks_run (n := n) hcap calls
  -- a hit is a standing proof
  have hstanding : ∀ key proof, (c.get key).1 = some proof → Standing calls key proof := by
    intro key proof hget
    obtain ⟨l, hl⟩ := htracks (shard key)
    have hhit : (c.get key).1.isSome := by rw [hget]; rfl
    obtain ⟨⟨k, q⟩, he, rfl⟩ := mem_map.1 (hl.get_isSome.1 hhit)
    have hq : (c.get k).1 = some q := (hl.refines.get_hit he).1
    obtain rfl := Option.some.inj (hq.symm.trans hget)
    exact hl.standing _ he
  refine ⟨fun i => ?_, fun key proof hget => ?_, fun key before after hcalls hset => ?_,
    fun hdelete key => ?_⟩
  · obtain ⟨l, hl⟩ := htracks i
    have hkeys : (c.shards i).lru.elems.map (·.2.1) = l.map (·.1) := by
      rw [← hl.refines.elems, map_map]
      rfl
    have hlen : (c.shards i).lru.len = l.length := by
      rw [← hl.refines.elems, length_map]
      rfl
    rw [hkeys, hlen]
    refine ⟨?_, hl.refines.nodup, hl.refines.bounded⟩
    refine (perm_ext_iff_of_nodup (AList.keys_nodup _) hl.refines.nodup).2 fun key => ?_
    rw [← not_iff_not, ← hl.refines.lookup_eq_none, AList.lookup_eq_none]
    rfl
  · obtain ⟨before, after, hcalls, hafter⟩ := hstanding key proof hget
    exact ⟨before, after, hcalls, fun q hq => nomatch hafter _ hq rfl⟩
  · refine Option.eq_none_iff_forall_ne_some.2 fun proof hget => ?_
    obtain ⟨q, hq⟩ := (hstanding key proof hget).not_deleted hcalls
    exact hset q hq
  · obtain ⟨l, hl⟩ := htracks (shard key)
    rw [hl.get_isSome, hl.exact hdelete, mem_take_recent, takeWhile_filter (by simp)]
    refine and_congr_left fun _ => ⟨fun hkey => ?_, fun hset => ?_⟩
    · exact exists_set_of_mem_uses hcap calls (mem_filter.1 hkey).1
    · obtain ⟨proof, hset⟩ := hset
      exact mem_filter.2 ⟨mem_uses_of_set _ hset, by simp⟩

section Instances

local instance recencyHashing : Hashing Str := ⟨id, id, fun _ => 0⟩

def nullProof : MaterializedProof Unit Str where
  queryPath := []
  value := .vNull
  versionVector := ∅
  pathToNode := ∅
  rootNode := .node
    { addr := 0, expr := .eConst .vNull, cachedValue := none, dirty := false, sourceHash := []
      sourcePath := [] } []
  reduceStats := ⟨0, 0, 0⟩

theorem exactLru_two_shards :
    (((new 2 1).run [.set [0] nullProof, .set [1] nullProof] : ProofCache 2 Unit Str).get [0]).1.isSome := by
  refine (((exactLru (n := 2) (by decide : 0 < 1) [.set [0] nullProof, .set [1] nullProof]).2.2.2 ?_) [0]).2
    ⟨⟨nullProof, mem_cons_self⟩, ?_⟩
  · simp
  · decide +kernel

end Instances

end ProofCache

end Wavicle.Engine
