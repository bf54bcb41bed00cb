import Wavicle.Storage.Store
import Wavicle.Lib.LinkedList

/-! # The sharded frontier cache

`storage/sharded_frontier.go`: the current atom of each path in 32 shards, with LRU eviction at a memory ceiling and
a sweep of expired entries. Each method is given the instant at which it reads the clock. Telemetry and the causal
parents, which `AppendAtom` ignores, are left out. -/

namespace Wavicle.Storage

open Lib Wavicle.Core

variable {ι H : Type}

/-- A shard: the atoms of its paths, the paths of their hashes, the LRU list with its index, and the bytes in
use. -/
structure FrontierShard (ι H : Type) where
  entries : GoMap Str (CausalAtom ι H)
  hashToPath : GoMap H Str
  lruList : LinkedList Str
  lruNodes : GoMap Str ℕ
  bytes : ℤ

/-- The cache: 32 shards, the logical clock, and the bytes in use with their ceiling. -/
structure ShardedFrontierCache (ι H : Type) where
  shards : Fin 32 → FrontierShard ι H
  clock : ℕ
  maxMemoryBytes : ℤ
  currentBytes : ℤ

def shardFor (H : Type) [Hashing H] (path : Str) : Fin 32 :=
  Fin.ofNat 32 (Hashing.xxhash H path).toNat

def estimateAtomBytes (path : Str) (atom : CausalAtom ι H) : ℤ :=
  220 + path.length + match atom.expr with
    | .eConst (.vString s) => 16 + s.length
    | .eConst (.vBytes b) => 24 + b.length
    | .eConst _ => 16
    | _ => 48

def sameAtomContent (a b : CausalAtom ι H) : Bool :=
  if unixNano a.expiresAt ≠ unixNano b.expiresAt then false
  else match a.expr, b.expr with
    | .eConst v, .eConst w => v.serialize = w.serialize
    | _, _ => false

namespace FrontierShard

variable [DecidableEq H]

variable (s : FrontierShard ι H)

/-- `if elem, exists := s.lruNodes[path]; exists { s.lruList.MoveToFront(elem) }` -/
def touch (path : Str) : FrontierShard ι H :=
  match s.lruNodes.lookup path with
  | none => s
  | some elem => { s with lruList := s.lruList.moveToFront elem }

/-- The removal of the element of `path` from the LRU list, if there is one. -/
def unlink (path : Str) : FrontierShard ι H :=
  match s.lruNodes.lookup path with
  | none => s
  | some elem =>
    { s with lruList := s.lruList.remove elem, lruNodes := s.lruNodes.erase path }

def displace (path : Str) (old : CausalAtom ι H) : FrontierShard ι H :=
  { s with
    hashToPath := s.hashToPath.erase old.hash
    bytes := s.bytes - estimateAtomBytes path old }.unlink path

/-- The assignment of a new atom to `path`. -/
def assign (path : Str) (atom : CausalAtom ι H) : FrontierShard ι H :=
  let (elem, lruList) := s.lruList.pushFront path
  { entries := s.entries.insert path atom
    hashToPath := s.hashToPath.insert atom.hash path
    lruList := lruList
    lruNodes := s.lruNodes.insert path elem
    bytes := s.bytes + estimateAtomBytes path atom }

def sweepEntry (path : Str) (atom : CausalAtom ι H) : FrontierShard ι H :=
  { s with
    entries := s.entries.erase path
    hashToPath := s.hashToPath.erase atom.hash
    bytes := s.bytes - estimateAtomBytes path atom }.unlink path

def sweep (now : Time) : FrontierShard ι H :=
  s.entries.entries.foldl (fun s e => if e.2.expired now then s.sweepEntry e.1 e.2 else s) s

/-- The removal of the least recently used path, with the bytes it frees; `none` when the list is
empty. -/
def evictOldest : Option (FrontierShard ι H × ℤ) :=
  match s.lruList.back with
  | none => none
  | some (elem, path) =>
    let s' := { s with lruList := s.lruList.remove elem, lruNodes := s.lruNodes.erase path }
    match s'.entries.lookup path with
    | none => some (s', 0)
    | some atom =>
      some ({ s' with
        hashToPath := s'.hashToPath.erase atom.hash
        entries := s'.entries.erase path
        bytes := s'.bytes - estimateAtomBytes path atom }, estimateAtomBytes path atom)

end FrontierShard

namespace ShardedFrontierCache

/-- `NewShardedFrontierCacheWithLimit` -/
def new (maxBytes : ℤ) : ShardedFrontierCache ι H where
  shards _ := ⟨∅, ∅, .new, ∅, 0⟩
  clock := 0
  maxMemoryBytes := if maxBytes ≤ 0 then 4 * 1024 * 1024 * 1024 else maxBytes
  currentBytes := 0

variable [DecidableEq H] [Hashing H]

variable (f : ShardedFrontierCache ι H)

def shard (path : Str) : FrontierShard ι H :=
  f.shards (shardFor H path)

/-- `s.entries[path]` in the shard of the path. -/
def resident (path : Str) : Option (CausalAtom ι H) :=
  (f.shard path).entries.lookup path

def setShard (path : Str) (s : FrontierShard ι H) :
    ShardedFrontierCache ι H :=
  { f with shards := Function.update f.shards (shardFor H path) s }

/-! ### Writing -/

/-- The atom that `AppendAtom` makes before it takes the lock. -/
def mint (now : Time) (expr : Expr ι H) (path : Str)
    (expiresAt : Time) : CausalAtom ι H :=
  let atom : CausalAtom ι H :=
    { hash := Hashing.sha3 []
      expr := expr
      causalPast := []
      logicalClock := f.clock + 1
      physicalTime := now
      nonce := List.replicate 16 0
      path := path
      expiresAt := expiresAt }
  { atom with hash := atom.computeHash }

/-- The resident atom that makes `AppendAtom` drop `atom`: one with a higher clock, or one with the
same content. The flag says that the LRU list is touched. -/
def keeps (old atom : CausalAtom ι H) : Option Bool :=
  if old.logicalClock > atom.logicalClock then some false
  else if old.hash ≠ atom.hash ∧ sameAtomContent old atom then some true
  else none

/-- The assignment of a new atom, after the resident one has been taken out. -/
def replace (atom : CausalAtom ι H) : ShardedFrontierCache ι H :=
  let path := atom.path
  match f.resident path with
  | none =>
    { f.setShard path ((f.shard path).assign path atom) with
      currentBytes := f.currentBytes + estimateAtomBytes path atom }
  | some old =>
    { f.setShard path (((f.shard path).displace path old).assign path atom) with
      currentBytes := f.currentBytes - estimateAtomBytes path old + estimateAtomBytes path atom }

/-- The guarded insert under the shard lock: the hash to return, the cache, and whether the atom
went in. -/
def insertAtom (atom : CausalAtom ι H) :
    H × ShardedFrontierCache ι H × Bool :=
  match f.resident atom.path with
  | none => (atom.hash, f.replace atom, true)
  | some old =>
    match keeps old atom with
    | some true => (old.hash, f.setShard atom.path ((f.shard atom.path).touch atom.path), false)
    | some false => (old.hash, f, false)
    | none => (atom.hash, f.replace atom, true)

def mostLoaded : ℤ × Option (Fin 32) :=
  (List.finRange 32).foldl
    (fun best i => if (f.shards i).bytes > best.1 then ((f.shards i).bytes, some i) else best)
    (-1, none)

/-- One round of the eviction loop; `none` when it gives up. -/
def evictRound : Option (ShardedFrontierCache ι H) :=
  match f.mostLoaded with
  | (_, none) => none
  | (maxB, some victim) =>
    if maxB ≤ 0 then none
    else match (f.shards victim).evictOldest with
      | none => none
      | some (s, freed) =>
        some { f with
          shards := Function.update f.shards victim s
          currentBytes := f.currentBytes - freed }

def lruEmpty : Bool :=
  (List.finRange 32).all fun i => (f.shards i).lruList.len = 0

/-- `evictToTarget`, for as many rounds as there is fuel. -/
def evictRounds (target : ℤ) : ℕ → ShardedFrontierCache ι H → ShardedFrontierCache ι H
  | 0, f => f
  | fuel + 1, f =>
    if f.currentBytes ≤ target then f
    else match f.evictRound with
      | none => f
      | some f' => if f'.lruEmpty then f' else evictRounds target fuel f'

/-- `evictToTarget`: each round unlinks one element, so as many rounds as there are elements are
all there can be. -/
def evictToTarget (target : ℤ) : ShardedFrontierCache ι H :=
  evictRounds target ((List.finRange 32).map fun i => (f.shards i).lruList.len).sum f

/-- `int64(float64(f.maxMemoryBytes)*0.90)` -/
def ceiling : ℤ :=
  Binary64.mulTrunc f.maxMemoryBytes.toNat Binary64.ninetyPercent

/-- `int64(float64(f.maxMemoryBytes) * 0.80)` -/
def target : ℤ :=
  Binary64.mulTrunc f.maxMemoryBytes.toNat Binary64.eightyPercent

def overCeiling : Bool :=
  f.maxMemoryBytes > 0 ∧ f.currentBytes ≥ f.ceiling

/-- `AppendAtom`, called at the instant `now`. -/
def appendAtom (now : Time) (expr : Expr ι H) (path : Str)
    (expiresAt : Time) : H × ShardedFrontierCache ι H :=
  let atom := f.mint now expr path expiresAt
  match { f with clock := f.clock + 1 }.insertAtom atom with
  | (hash, f', false) => (hash, f')
  | (hash, f', true) => (hash, if f'.overCeiling then f'.evictToTarget f'.target else f')

/-! ### Reading -/

def getCurrent (now : Time) (path : Str) :
    Option (CausalAtom ι H) × ShardedFrontierCache ι H :=
  match f.resident path with
  | none => (none, f)
  | some atom =>
    if atom.expired now then (none, f)
    else (some atom, f.setShard path ((f.shard path).touch path))

/-- What one shard knows of a hash: nothing, or the atom unless it has expired. -/
def atomIn (s : FrontierShard ι H) (now : Time) (hash : H) : Option (Option (CausalAtom ι H)) :=
  match s.hashToPath.lookup hash with
  | none => none
  | some path =>
    match s.entries.lookup path with
    | none => none
    | some atom => some (if atom.expired now then none else some atom)

def getAtom (now : Time) (hash : H) : Option (CausalAtom ι H) :=
  ((List.finRange 32).findSome? fun i => atomIn (f.shards i) now hash).join

def frontierPaths (now : Time) : List Str :=
  (List.finRange 32).flatMap fun i =>
    ((f.shards i).entries.entries.filter fun e => e.2.expiresAt = zeroTime ∨ now < e.2.expiresAt).map
      (·.1)

/-- The current atom of `path` is live and has the hash `expected`. -/
def matchesEntry (now : Time) (path : Str) (expected : H) : Bool :=
  match f.resident path with
  | none => false
  | some atom => atom.hash = expected ∧ ¬ atom.expired now

def verifyVersionVector (now : Time) (entries : VersionVector H) :
    Bool :=
  entries.entries.all fun e => f.matchesEntry now e.1 e.2

def getCurrentHash (now : Time) (path : Str) : Option H :=
  match f.resident path with
  | none => none
  | some atom => if atom.expired now then none else some atom.hash

def findChangedPaths (now : Time) (entries : VersionVector H) :
    List Str :=
  (entries.entries.filter fun e => !f.matchesEntry now e.1 e.2).map (·.1)

/-- One tick of `sweepExpired`. -/
def sweepExpired (now : Time) : ShardedFrontierCache ι H :=
  { f with
    shards := fun i => (f.shards i).sweep now
    currentBytes := f.currentBytes +
      ((List.finRange 32).map fun i => ((f.shards i).sweep now).bytes - (f.shards i).bytes).sum }

end ShardedFrontierCache

end Wavicle.Storage
