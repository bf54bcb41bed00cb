import Wavicle.Core.Heap
import Wavicle.Engine.Proof
import Wavicle.Lib.LinkedList

/-! # The proof cache

`engine/cache.go`: proofs in shards, each with a map and a list from the most to the least recently
used one. A `Set` beyond the capacity of a shard drops the last one of its list. -/

namespace Wavicle.Engine

open Lib Wavicle.Core Storage

variable {ι H : Type}

/-- A shard of the proof cache, with its entries from the most recently used on. -/
structure CacheShard (ι H : Type) where
  entries : GoMap H ℕ
  lru : LinkedList (H × MaterializedProof ι H)
  capacity : ℕ

/-- `ProofCache`, with `n` shards -/
structure ProofCache (n : ℕ) (ι H : Type) where
  shards : Fin n → CacheShard ι H

/-- `Hash.FastHash`: the first eight bytes, the least significant one first -/
def fastHash [Hashing H] (h : H) : ℕ :=
  ((Hashing.bytes h).take 8).foldr (fun b n => b.toNat + 256 * n) 0

def ProofCache.new (n capacityPerShard : ℕ) : ProofCache n ι H := ⟨fun _ => ⟨∅, .new, capacityPerShard⟩⟩

namespace CacheShard

variable [DecidableEq H]

variable (s : CacheShard ι H)

def find (key : H) : Option (ℕ × MaterializedProof ι H) :=
  (s.entries.lookup key).bind fun elem => (s.lru.value elem).map fun entry => (elem, entry.2)

def get (key : H) : Option (MaterializedProof ι H) × CacheShard ι H :=
  match s.find key with
  | some (elem, proof) => (some proof, { s with lru := s.lru.moveToFront elem })
  | none => (none, s)

/-- The removal of the least recently used proof from a full shard. -/
def makeRoom : CacheShard ι H :=
  if s.capacity ≤ s.lru.len then
    match s.lru.back with
    | some (elem, entry) =>
      { s with entries := s.entries.erase entry.1, lru := s.lru.remove elem }
    | none => s
  else s

def set (key : H) (proof : MaterializedProof ι H) : CacheShard ι H :=
  match s.entries.lookup key with
  | some elem => { s with lru := (s.lru.moveToFront elem).setValue elem (key, proof) }
  | none =>
    let s := s.makeRoom
    let (elem, lru) := s.lru.pushFront (key, proof)
    { s with entries := s.entries.insert key elem, lru := lru }

def delete (key : H) : CacheShard ι H :=
  match s.entries.lookup key with
  | some elem => { s with entries := s.entries.erase key, lru := s.lru.remove elem }
  | none => s

def update (key : H) (proof : MaterializedProof ι H) : CacheShard ι H :=
  match s.entries.lookup key with
  | some elem => { s with lru := s.lru.setValue elem (key, proof) }
  | none => s

end CacheShard

namespace ProofCache

variable {n : ℕ} [NeZero n] [DecidableEq H] [Hashing H]

def shard (key : H) : Fin n := Fin.ofNat n (fastHash key)

variable (c : ProofCache n ι H)

def setShard (i : Fin n) (s : CacheShard ι H) : ProofCache n ι H :=
  ⟨Function.update c.shards i s⟩

def get (key : H) : Option (MaterializedProof ι H) × ProofCache n ι H :=
  let (proof, s) := (c.shards (shard key)).get key
  (proof, c.setShard (shard key) s)

def set (key : H) (proof : MaterializedProof ι H) : ProofCache n ι H :=
  c.setShard (shard key) ((c.shards (shard key)).set key proof)

def delete (key : H) : ProofCache n ι H :=
  c.setShard (shard key) ((c.shards (shard key)).delete key)

def update (key : H) (proof : MaterializedProof ι H) : ProofCache n ι H :=
  c.setShard (shard key) ((c.shards (shard key)).update key proof)

end ProofCache

/-! ### Changes in place

A proof holds the values of its atoms, not copies of them. -/

def NodeInfo.change (c : Change) (info : NodeInfo Ref H) : NodeInfo Ref H :=
  { info with expr := info.expr.change c, cachedValue := info.cachedValue.map (Value.change c) }

def MaterializedProof.change (c : Change) (p : MaterializedProof Ref H) : MaterializedProof Ref H :=
  { p with value := p.value.change c, rootNode := p.rootNode.map (NodeInfo.change c) }

def ProofCache.change {n : ℕ} (c : Change) (pc : ProofCache n Ref H) : ProofCache n Ref H :=
  ⟨fun i => { pc.shards i with
    lru := ⟨(pc.shards i).lru.elems.map fun x => (x.1, x.2.1, x.2.2.change c), (pc.shards i).lru.next⟩ }⟩

end Wavicle.Engine
