import Wavicle.Storage.Lawful

/-! # CausalCrystal

`storage/crystal.go`, the store with a write-ahead log. Atoms that are not on the frontier are dropped when the
cache is compacted or grows too large; deadlines are not looked at by reads. The parent and depth indexes, the
Merkle tree and the domain of an atom are left out. A `Draw` is what the operating system contributes to an
append: the nonce, the error of the log file, and the order of `sync.Map.Range`. -/

namespace Wavicle.Storage

open Lib Wavicle.Core

/-- What an append meets: its nonce, the error of the log, and the order in which an eviction ranges over the
cache. -/
structure Draw (H : Type) where
  nonce : Str
  walError : Option Str
  range : List H

/-- The frontier maps each path to the hash of its current atom; the cache has the atoms. -/
structure CausalCrystal (ι H : Type) where
  frontier : GoMap Str H
  atomCache : GoMap H (CausalAtom ι H)
  atomCount : ℤ
  clock : ℕ

def maxAtomCacheEntries : ℤ := 100000

namespace CausalCrystal

variable {ι H : Type} [DecidableEq H]

/-- The hash is that of a current atom. -/
def onFrontier (c : CausalCrystal ι H) (hash : H) : Bool :=
  c.frontier.entries.any fun e => e.2 = hash

def drop (c : CausalCrystal ι H) (hash : H) : CausalCrystal ι H :=
  { c with atomCache := c.atomCache.erase hash, atomCount := c.atomCount - 1 }

/-- The loop of `evictIfNeeded`, which may still evict `budget` atoms. -/
def evictFrom (c : CausalCrystal ι H) : ℕ → List H → CausalCrystal ι H
  | 0, _ => c
  | _ + 1, [] => c
  | budget + 1, hash :: range =>
    match c.atomCache.lookup hash with
    | none => c.evictFrom (budget + 1) range
    | some _ =>
      if c.onFrontier hash then c.evictFrom (budget + 1) range
      else (c.drop hash).evictFrom budget range

/-- `evictIfNeeded`. The second look at the frontier, for the atom's own path, finds nothing new. -/
def evictIfNeeded (c : CausalCrystal ι H) (range : List H) : CausalCrystal ι H :=
  if c.atomCount < maxAtomCacheEntries then c
  else c.evictFrom (Binary64.tenPercentTrunc c.atomCount.toNat) range

/-- `Compact`, if the log could be rewritten: only the atoms on the frontier stay. -/
def compact (c : CausalCrystal ι H) : CausalCrystal ι H :=
  c.atomCache.keys.foldl (fun d hash => if c.onFrontier hash then d else d.drop hash) c

/-- `Recover`, from the atoms of the log -/
def recover (atoms : List (CausalAtom ι H)) : CausalCrystal ι H :=
  atoms.foldl (fun c atom =>
    { frontier := c.frontier.insert atom.path atom.hash
      atomCache := c.atomCache.insert atom.hash atom
      atomCount := c.atomCount + 1
      clock := max c.clock atom.logicalClock }) ⟨∅, ∅, 0, 0⟩

def getAtom (c : CausalCrystal ι H) (hash : H) : Option (CausalAtom ι H) := c.atomCache.lookup hash

/-- `GetCurrent`: the hash of the path may lead to nothing in the cache. -/
def getCurrent (c : CausalCrystal ι H) (path : Str) : Option (CausalAtom ι H) :=
  match c.frontier.lookup path with
  | none => none
  | some hash => c.getAtom hash

def getCurrentHash (c : CausalCrystal ι H) (path : Str) : Option H := c.frontier.lookup path

def verifyVersionVector (c : CausalCrystal ι H) (entries : VersionVector H) : Bool :=
  entries.entries.all fun e => c.getCurrentHash e.1 = some e.2

def findChangedPaths (c : CausalCrystal ι H) (entries : VersionVector H) : List Str :=
  (entries.entries.filter fun e => c.getCurrentHash e.1 ≠ some e.2).map (·.1)

variable [Hashing H]

def mint (c : CausalCrystal ι H) (now : Time) (draw : Draw H) (expr : Expr ι H) (path : Str)
    (causalPast : List H) (expiresAt : Time) : CausalAtom ι H :=
  let atom : CausalAtom ι H :=
    { hash := Hashing.sha3 [], expr, causalPast, logicalClock := c.clock + 1, physicalTime := now
      nonce := draw.nonce, path, expiresAt }
  { atom with hash := atom.computeHash }

/-- The hot indexes after an append, before the emergency eviction. -/
def insertAtom (c : CausalCrystal ι H) (atom : CausalAtom ι H) : CausalCrystal ι H :=
  { frontier := c.frontier.insert atom.path atom.hash
    atomCache := c.atomCache.insert atom.hash atom
    atomCount := c.atomCount + 1
    clock := c.clock + 1 }

/-- `AppendAtom` of an interned expression -/
def appendAtom (c : CausalCrystal ι H) (now : Time) (draw : Draw H) (expr : Expr ι H) (path : Str)
    (causalPast : List H) (expiresAt : Time) : Except Str H × CausalCrystal ι H :=
  let atom := c.mint now draw expr path causalPast expiresAt
  match draw.walError with
  | some msg => (.error (str "wal append: " ++ msg), { c with clock := c.clock + 1 })
  | none =>
    let c := c.insertAtom atom
    (.ok atom.hash,
      if c.atomCount > maxAtomCacheEntries then c.evictIfNeeded draw.range else c)

end CausalCrystal

/-! ### Runs -/

/-- The crystal, the intern table, the time, what is drawn for each append, and the ghost log. -/
structure CrystalWorld (ι H : Type) where
  crystal : CausalCrystal ι H
  interned : InternTable ι H
  now : Time
  draws : ℕ → Draw H
  drawn : ℕ
  log : List (CausalAtom ι H)

namespace CrystalWorld

variable {ι H : Type} [DecidableEq H] [Hashing H]

/-- `NewCausalCrystal` over a log with the given atoms. -/
def init (atoms : List (CausalAtom ι H)) (now : Time) (draws : ℕ → Draw H) : CrystalWorld ι H :=
  ⟨.recover atoms, [], now, draws, 0, atoms.reverse⟩

def append (w : CrystalWorld ι H) (expr : Expr ι H) (path : Str) (causalPast : List H)
    (expiresAt : Time) : Except Str H × CrystalWorld ι H :=
  let (expr, interned) := w.interned.intern expr
  let draw := w.draws w.drawn
  let (r, crystal) := w.crystal.appendAtom w.now draw expr path causalPast expiresAt
  (r, { w with
    crystal, interned, drawn := w.drawn + 1
    log := w.crystal.mint w.now draw expr path causalPast expiresAt :: w.log })

/-- The service behind a `StoreProg`. -/
def call (w : CrystalWorld ι H) (c : StoreCall ι H) : c.op.Res × CrystalWorld ι H :=
  match c with
  | ⟨_, .appendAtom expr path parents expiresAt⟩ => w.append expr path parents expiresAt
  | ⟨_, .getCurrent path⟩ => (w.crystal.getCurrent path, w)
  | ⟨_, .getAtom hash⟩ => (w.crystal.getAtom hash, w)
  | ⟨_, .frontierPaths⟩ => (w.crystal.frontier.keys, w)
  | ⟨_, .verifyVersionVector entries⟩ => (w.crystal.verifyVersionVector entries, w)
  | ⟨_, .getCurrentHash path⟩ => (w.crystal.getCurrentHash path, w)
  | ⟨_, .findChangedPaths entries⟩ => (w.crystal.findChangedPaths entries, w)

/-- What the crystal shows. -/
def view (w : CrystalWorld ι H) : View ι H := ⟨w.crystal.getCurrent, w.crystal.getAtom⟩

/-- The steps that append nothing: reads, the passing of time, a compaction (which does nothing if
the log cannot be rewritten), and expressions that are interned elsewhere. -/
inductive Idle (w : CrystalWorld ι H) : CrystalWorld ι H → Prop where
  | read (c : StoreCall ι H) (h : c.IsRead) : Idle w (w.call c).2
  | tick (t : Time) (h : w.now ≤ t) : Idle w { w with now := t }
  | compact : Idle w { w with crystal := w.crystal.compact }
  | intern (e : Expr ι H) : Idle w { w with interned := (w.interned.intern e).2 }

/-- A step of a crystal under load: any call, or idling. -/
inductive Step (w : CrystalWorld ι H) : CrystalWorld ι H → Prop where
  | call (c : StoreCall ι H) : Step w (w.call c).2
  | idle {w' : CrystalWorld ι H} (h : Idle w w') : Step w w'

/-- A state of a crystal under any load. -/
def Reachable (w : CrystalWorld ι H) : Prop :=
  ∃ atoms now draws, Relation.ReflTransGen Step (init atoms now draws) w

end CrystalWorld

end Wavicle.Storage
