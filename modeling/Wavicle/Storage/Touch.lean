import Wavicle.Storage.InPlace

/-! # Reading a path again

`GetCurrent` moves a path to the front of the LRU list of its shard, and whatever is done to the path afterwards does
it too: no later operation on the path tells a world from `World.touched`, the world after the read. -/

namespace Wavicle.Lib.LinkedList

variable {α : Type}

theorem moveToFront_moveToFront (l : LinkedList α) (e : ℕ) :
    (l.moveToFront e).moveToFront e = l.moveToFront e := by
  simp [moveToFront, List.filter_append, List.filter_filter]

theorem remove_moveToFront (l : LinkedList α) (e : ℕ) : (l.moveToFront e).remove e = l.remove e := by
  simp [moveToFront, remove, List.filter_append, List.filter_filter]

end Wavicle.Lib.LinkedList

namespace Wavicle.Storage

open Lib Wavicle.Core FrontierShard

variable {ι H : Type} [DecidableEq H]

namespace FrontierShard

omit [DecidableEq H] in
theorem touch_touch (s : FrontierShard ι H) (path : Str) : (s.touch path).touch path = s.touch path := by
  unfold touch
  cases h : s.lruNodes.lookup path with
  | none => simp [h]
  | some e => simp [h, LinkedList.moveToFront_moveToFront]

theorem displace_touch (s : FrontierShard ι H) (path : Str) (old : CausalAtom ι H) :
    (s.touch path).displace path old = s.displace path old := by
  unfold touch displace unlink
  cases h : s.lruNodes.lookup path with
  | none => simp [h]
  | some e => simp [h, LinkedList.remove_moveToFront]

end FrontierShard

namespace ShardedFrontierCache

variable [Hashing H]

def touched (f : ShardedFrontierCache ι H) (now : Time) (path : Str) : ShardedFrontierCache ι H :=
  (f.getCurrent now path).2

variable (f : ShardedFrontierCache ι H) (now : Time) (expr : Expr ι H) (path : Str)

omit [DecidableEq H] in
theorem touched_eq : f.touched now path = f ∨
      (∃ old, f.resident path = some old ∧ old.expired now = false) ∧
        f.touched now path = f.setShard path ((f.shard path).touch path) := by
  unfold touched getCurrent
  cases h : f.resident path with
  | none => exact Or.inl rfl
  | some old =>
    cases he : old.expired now with
    | true => simp [he]
    | false => exact Or.inr ⟨⟨old, rfl, he⟩, by simp [he]⟩

omit [DecidableEq H] in
theorem touched_of_live {f : ShardedFrontierCache ι H} {now : Time} {path : Str}
    {old : CausalAtom ι H} (h : f.resident path = some old) (he : old.expired now = false) :
    f.touched now path = f.setShard path ((f.shard path).touch path) := by
  unfold touched getCurrent
  simp [h, he]

theorem resident_touched : (f.touched now path).resident = f.resident :=
  (same_getCurrent f now path).resident

omit [DecidableEq H] in
theorem shard_setShard (s : FrontierShard ι H) : (f.setShard path s).shard path = s :=
  Function.update_self ..

omit [DecidableEq H] in
theorem setShard_setShard (s s' : FrontierShard ι H) :
    (f.setShard path s).setShard path s' = f.setShard path s' := by
  unfold setShard
  simp

theorem touched_touched : (f.touched now path).touched now path = f.touched now path := by
  rcases f.touched_eq now path with h | ⟨⟨old, hres, he⟩, h⟩
  · rw [h, h]
  · have hres' : (f.touched now path).resident path = some old := by rw [resident_touched, hres]
    rw [touched_of_live hres' he, h, shard_setShard, setShard_setShard, touch_touch]

theorem insertAtom_touched (f : ShardedFrontierCache ι H) (now : Time) (atom : CausalAtom ι H) :
    let g := f.touched now atom.path
    (g.insertAtom atom).1 = (f.insertAtom atom).1 ∧
      (g.insertAtom atom).2.2 = (f.insertAtom atom).2.2 ∧
      ((g.insertAtom atom).2.1 = (f.insertAtom atom).2.1 ∨
        (f.insertAtom atom).2 = (f, false) ∧ (g.insertAtom atom).2 = (g, false)) := by
  intro g
  rcases f.touched_eq now atom.path with h | ⟨⟨old, hres, he⟩, h⟩
  · rw [show g = f from h]
    exact ⟨rfl, rfl, Or.inl rfl⟩
  · have hg : g = f.setShard atom.path ((f.shard atom.path).touch atom.path) := h
    have hres' : g.resident atom.path = some old := by rw [show g.resident = _ from
      resident_touched f now atom.path, hres]
    cases hk : keeps old atom with
    | none =>
      simp only [insertAtom, hres, hres', hk, replace, true_and]
      left
      rw [hg, shard_setShard, displace_touch, setShard_setShard]
      rfl
    | some b =>
      cases b with
      | true =>
        simp only [insertAtom, hres, hres', hk, true_and]
        left
        rw [hg, shard_setShard, setShard_setShard, touch_touch]
      | false =>
        simp only [insertAtom, hres, hres', hk, true_and]
        exact Or.inr trivial

def ticked (f : ShardedFrontierCache ι H) : ShardedFrontierCache ι H := { f with clock := f.clock + 1 }

section

omit [DecidableEq H]

theorem touched_ticked : f.ticked.touched now path = (f.touched now path).ticked := by
  unfold touched getCurrent
  rw [show f.ticked.resident path = f.resident path from rfl]
  cases f.resident path with
  | none => rfl
  | some old =>
    simp only
    split_ifs <;> rfl

theorem entries_touched (i : Fin 32) : ((f.touched now path).shards i).entries = (f.shards i).entries := by
  rcases f.touched_eq now path with h | ⟨-, h⟩
  · rw [h]
  · rw [h]
    by_cases hi : i = shardFor H path
    · subst hi
      exact (congrArg entries (f.shard_setShard path _)).trans
        (entries_touch ..)
    · exact congrArg entries (Function.update_of_ne hi ..)

theorem frontierPaths_touched : (f.touched now path).frontierPaths now = f.frontierPaths now := by
  unfold frontierPaths
  simp only [entries_touched]

end

/-- The end of `AppendAtom`: the ceiling is enforced if the atom went in. -/
def enforce (r : H × ShardedFrontierCache ι H × Bool) : H × ShardedFrontierCache ι H :=
  (r.1, if r.2.2 ∧ r.2.1.overCeiling then r.2.1.evictToTarget r.2.1.target else r.2.1)

theorem appendAtom_eq (expiresAt : Time) : f.appendAtom now expr path expiresAt =
      enforce (f.ticked.insertAtom (f.mint now expr path expiresAt)) := by
  unfold appendAtom enforce ticked
  simp only
  split
  · rename_i h
    simp [h]
  · rename_i h
    simp [h]

theorem appendAtom_touched (expiresAt : Time) :
    ((f.touched now path).appendAtom now expr path expiresAt).1 = (f.appendAtom now expr path expiresAt).1 ∧
      ((f.touched now path).appendAtom now expr path expiresAt).2.touched now path =
        (f.appendAtom now expr path expiresAt).2.touched now path := by
  have hmint : (f.touched now path).mint now expr path expiresAt = f.mint now expr path expiresAt := by
    unfold mint
    rw [show (f.touched now path).clock = f.clock from clock_getCurrent ..]
  rw [appendAtom_eq, appendAtom_eq, hmint, ← touched_ticked]
  obtain ⟨hhash, hflag, heq | ⟨hf, hg⟩⟩ :=
    insertAtom_touched f.ticked now (f.mint now expr path expiresAt)
  · have hsame := Prod.ext hhash (Prod.ext heq hflag)
    rw [show (f.mint now expr path expiresAt).path = path from rfl] at hsame
    rw [hsame]
    exact ⟨rfl, rfl⟩
  · -- the atom was dropped, and the two caches differ by the read
    refine ⟨hhash, ?_⟩
    rw [show (f.mint now expr path expiresAt).path = path from rfl] at hg
    unfold enforce
    rw [hf, hg]
    simp [touched_touched]

/-! ### Appends that evict nothing -/

/-- The append goes over the memory ceiling, so that paths are evicted. -/
def evicts (expiresAt : Time) : Bool :=
  let r := f.ticked.insertAtom (f.mint now expr path expiresAt)
  r.2.2 && r.2.1.overCeiling

variable {f now expr path} in
theorem appendAtom_of_not_evicts {expiresAt : Time} (h : f.evicts now expr path expiresAt = false) :
    f.appendAtom now expr path expiresAt = ((f.ticked.insertAtom (f.mint now expr path expiresAt)).1,
        (f.ticked.insertAtom (f.mint now expr path expiresAt)).2.1) := by
  rw [appendAtom_eq, enforce, if_neg]
  rw [← Bool.and_eq_true]
  exact Bool.eq_false_iff.1 h

end ShardedFrontierCache

namespace World

variable [Hashing H]

variable (w : World ι H)

def touched (path : Str) : World ι H :=
  { w with cache := w.cache.touched w.now path }

theorem touched_touched (path : Str) : (w.touched path).touched path = w.touched path := by
  unfold touched
  simp only [ShardedFrontierCache.touched_touched]

theorem current_touched (path : Str) : (w.touched path).current = w.current :=
  (ShardedFrontierCache.same_getCurrent w.cache w.now path).current w.now

theorem append_touched (expr : Expr ι H) (path : Str) (expiresAt : Time) :
    ((w.touched path).append expr path expiresAt).1 = (w.append expr path expiresAt).1 ∧
      ((w.touched path).append expr path expiresAt).2.touched path =
        (w.append expr path expiresAt).2.touched path := by
  obtain ⟨hhash, hcache⟩ := w.cache.appendAtom_touched w.now expr path expiresAt
  refine ⟨hhash, ?_⟩
  have hmint : (w.touched path).mint expr path expiresAt = w.mint expr path expiresAt := by
    unfold mint ShardedFrontierCache.mint
    rw [show (w.touched path).cache.clock = w.cache.clock from
      ShardedFrontierCache.clock_getCurrent ..]
    rfl
  unfold append touched
  simp only [World.mk.injEq, true_and]
  exact ⟨hcache, congrArg (· :: w.log) hmint⟩

end World

theorem FrontierShard.touch_change {H : Type} (c : Change) (s : FrontierShard Ref H) (path : Str) :
    (s.change c).touch path = (s.touch path).change c := by
  unfold touch
  rw [show (s.change c).lruNodes = s.lruNodes from rfl]
  cases s.lruNodes.lookup path <;> rfl

omit [DecidableEq H] in
theorem World.touched_change [Hashing H] (c : Change) (w : World Ref H) (path : Str) :
    (w.change c).touched path = (w.touched path).change c := by
  have hcache : (w.cache.change c).touched w.now path = (w.cache.touched w.now path).change c := by
    unfold ShardedFrontierCache.touched ShardedFrontierCache.getCurrent
    rw [ShardedFrontierCache.resident_change]
    cases w.cache.resident path with
    | none => rfl
    | some old =>
      cases he : old.expired w.now with
      | true => simp [he]
      | false =>
        simp only [Option.map_some, expired_change, he, Bool.false_eq_true, if_false,
          ShardedFrontierCache.setShard, ShardedFrontierCache.change, ShardedFrontierCache.shard,
          touch_change]
        congr 1
        funext i
        by_cases hi : i = shardFor H path
        · subst hi
          rw [Function.update_self, Function.update_self]
        · rw [Function.update_of_ne hi, Function.update_of_ne hi]
  unfold World.touched World.change
  simp only [World.mk.injEq, and_true]
  exact hcache

end Wavicle.Storage
