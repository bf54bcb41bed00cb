import Wavicle.Storage.WriteThrough
import Wavicle.Core.Heap

/-! # Stores of objects

What a change of an object in place does to the stores that hold it: the atoms change, and the hashes
under which they are found do not. -/

namespace Wavicle.Storage

open Lib Wavicle.Core

variable {H : Type}

variable (c : Change) (f : ShardedFrontierCache Ref H)

def FrontierShard.change (s : FrontierShard Ref H) : FrontierShard Ref H :=
  { s with entries := s.entries.mapValues (CausalAtom.change c) }

def ShardedFrontierCache.change :
    ShardedFrontierCache Ref H :=
  { f with shards := fun i => (f.shards i).change c }

def World.change (w : World Ref H) : World Ref H :=
  { w with cache := w.cache.change c, log := w.log.map (CausalAtom.change c) }

/-- The change of a `WriteThroughStore`, whose database has copies. -/
def WriteThrough.change {δ : Type} (c : Change) (w : WriteThrough δ Ref H) : WriteThrough δ Ref H :=
  { w with cache := w.cache.change c }

/-! ### What a change leaves alone -/

@[simp] theorem expired_change (a : CausalAtom Ref H) (now : Time) :
    (a.change c).expired now = a.expired now := rfl

theorem map_hash_change (log : List (CausalAtom Ref H)) :
    (log.map (CausalAtom.change c)).map (·.hash) = log.map (·.hash) := by
  rw [List.map_map]
  rfl

variable [DecidableEq H] [Hashing H]

omit [DecidableEq H] [Hashing H] in
theorem ShardedFrontierCache.ent_change (i : Fin 32)
    (p : Str) : (f.change c).ent i p = (f.ent i p).map (CausalAtom.change c) :=
  GoMap.lookup_mapValues _ _ p

omit [DecidableEq H] in
theorem ShardedFrontierCache.resident_change (p : Str) :
    (f.change c).resident p = (f.resident p).map (CausalAtom.change c) :=
  f.ent_change c _ p

theorem World.Inv.change {w : World Ref H} (hw : w.Inv) (c : Change) : (w.change c).Inv := by
  have hent : ∀ i p a, (w.cache.change c).ent i p = some a →
      ∃ b, w.cache.ent i p = some b ∧ b.change c = a := fun i p a ha => by
    rw [ShardedFrontierCache.ent_change] at ha
    exact Option.map_eq_some_iff.1 ha
  refine ⟨⟨fun i p a ha => ?_, fun i p a ha => ?_, fun hnd i h p => ?_⟩, fun a ha => ?_⟩
  · obtain ⟨b, hb, rfl⟩ := hent i p a ha
    exact hw.exact.owner i p b hb
  · obtain ⟨b, hb, rfl⟩ := hent i p a ha
    exact List.mem_map_of_mem (hw.exact.logged i p b hb)
  · have hnd' : (w.log.map (·.hash)).Nodup := map_hash_change c w.log ▸ hnd
    refine (hw.exact.index hnd' i h p).trans ⟨?_, ?_⟩
    · rintro ⟨b, hb, rfl⟩
      refine ⟨b.change c, ?_, rfl⟩
      change (w.cache.change c).ent i p = _
      rw [ShardedFrontierCache.ent_change, hb]
      rfl
    · rintro ⟨a, ha, rfl⟩
      obtain ⟨b, hb, rfl⟩ := hent i p a ha
      exact ⟨b, hb, rfl⟩
  · obtain ⟨b, hb, rfl⟩ := List.mem_map.1 ha
    exact hw.clock b hb

end Wavicle.Storage
