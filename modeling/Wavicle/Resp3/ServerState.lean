import Wavicle.Resp3.HandleCommand
import Wavicle.Storage.InPlace

/-! # The server

The state behind the handlers: a store, the type index, the proof cache, the table of interned expressions and
the supply of new objects. -/

namespace Wavicle.Resp3

open Lib Wavicle.Core Storage Engine

/-- A store with states in `σ`. -/
structure Backend (σ H : Type) where
  call : σ → (c : StoreCall Ref H) → c.op.Res × σ
  change : Change → σ → σ
  now : σ → Time

instance neZero_shards : NeZero 64 := ⟨by decide⟩

/-- `Server`, with what it reaches through global variables. -/
structure Server (σ H : Type) where
  store : σ
  keyTypes : GoMap Str KeyType
  proofCache : ProofCache 64 Ref H
  /-- `globalIntern` -/
  interned : InternTable Ref H
  nextRef : ℕ
  /-- the error of `staleRefused`, if there is one -/
  stale : Option Str
  /-- `serverStartTime` -/
  startTime : Time

def Server.new {σ H : Type} (store : σ) (startTime : Time) : Server σ H :=
  ⟨store, ∅, .new 64 2000, [], 1, none, startTime⟩

variable {σ H : Type}

def Server.change (B : Backend σ H) (c : Change) (s : Server σ H) : Server σ H :=
  { s with
    store := B.change c s.store
    proofCache := s.proofCache.change c
    interned := s.interned.change c }

variable [DecidableEq H] [Hashing H]

/-- What the operations do. An interned constant is a constant, so the fallback of `newEConst` is never
taken. -/
def Server.step (B : Backend σ H) (s : Server σ H) : (op : ServerOp H) → op.Res × Server σ H
  | .store c => ((B.call s.store c).1, { s with store := (B.call s.store c).2 })
  | .loadType key => (s.keyTypes.lookup key, s)
  | .storeType key t => ((), { s with keyTypes := s.keyTypes.insert key t })
  | .deleteType key => ((), { s with keyTypes := s.keyTypes.erase key })
  | .clearTypes => ((), { s with keyTypes := ∅ })
  | .getProof query => ((s.proofCache.get query).1, { s with proofCache := (s.proofCache.get query).2 })
  | .setProof query proof => ((), { s with proofCache := s.proofCache.set query proof })
  | .updateProof query proof => ((), { s with proofCache := s.proofCache.update query proof })
  | .newEConst v =>
    (((s.interned.intern (.eConst v)).1.constValue).getD v,
      { s with interned := (s.interned.intern (.eConst v)).2 })
  | .newECompose atoms =>
    ((s.interned.intern (.eCompose atoms)).1,
      { s with interned := (s.interned.intern (.eCompose atoms)).2 })
  | .newMap => (.map s.nextRef, { s with nextRef := s.nextRef + 1 })
  | .newArray cap => (⟨s.nextRef, 0, cap⟩, { s with nextRef := s.nextRef + 1 })
  | .change c => ((), s.change B c)
  | .now => (B.now s.store, s)
  | .staleRefused => (s.stale, s)
  | .uptime => ((B.now s.store - s.startTime).toNat, s)

def shardedBackend (H : Type) [DecidableEq H] [Hashing H] : Backend (World Ref H) H :=
  ⟨World.call, World.change, World.now⟩

abbrev shardedStep (H : Type) [DecidableEq H] [Hashing H] := Server.step (shardedBackend H)

/-- A `WriteThroughStore` as the store of a server. -/
def writeThroughBackend {δ : Type} [Printing] [RuneClasses] (S : Sql δ Ref) :
    Backend (WriteThrough δ Ref H) H :=
  ⟨WriteThrough.call S, WriteThrough.change, fun w => w.cache.now⟩

/-! ### Reading -/

theorem run_liveAtom (s : Server (World Ref H) H) (path : Str) : (liveAtom path).run (shardedStep H) s =
      ((s.store.current path).filter fun a => !isTombstone a,
        { s with store := (s.store.call ⟨.given, .getCurrent path⟩).2 }) := by
  have hanswer := World.shows_view.answer s.store ⟨.given, .getCurrent path⟩ trivial trivial
  change (((s.store.call ⟨.given, .getCurrent path⟩).1.filter fun a => !isTombstone a), _) = _
  rw [hanswer]
  rfl

/-! ### Runs -/

variable [Floats] [Spaces] [Printing] [Unicode] [Runtime]

/-- `HandleCommand` on a server. -/
def Server.handle (B : Backend σ H) (fuel : ℕ) (s : Server σ H) (args : List Str) :
    Outcome × Server σ H :=
  (handleCommand fuel args).run (Server.step B) s

/-- What the loop gets from `HandleCommand`. A panic ends the process: nothing is written. -/
def answered : Outcome → Except Str Str
  | .ok reply => .ok reply
  | .error (.error msg) => .error msg
  | .error _ => .ok []

/-- One step of a server over the sharded cache: a command, the passing of time, a sweep, or news about
the replication. -/
inductive Server.Step (s : Server (World Ref H) H) : Server (World Ref H) H → Prop where
  | command (fuel : ℕ) (args : List Str) : Step s (s.handle (shardedBackend H) fuel args).2
  | tick (t : Time) (h : s.store.now ≤ t) : Step s { s with store := { s.store with now := t } }
  | sweep : Step s
      { s with store := { s.store with cache := s.store.cache.sweepExpired s.store.now } }
  | health (stale : Option Str) : Step s { s with stale := stale }

/-- A state of a server over the sharded cache. -/
def Server.Reachable (s : Server (World Ref H) H) : Prop :=
  ∃ maxBytes now, Relation.ReflTransGen Server.Step (.new (.init maxBytes now) now) s

variable {s : Server (World Ref H) H}

omit [Floats] [Spaces] [Printing] [Unicode] [Runtime] in
theorem run_unlessStale (s : Server (World Ref H) H) (p : ServerProg H Outcome) :
    (unlessStale p).run (shardedStep H) s =
      s.stale.elim (p.run (shardedStep H) s) fun msg => (failure msg, s) := by
  have hstep : shardedStep H s .staleRefused = (s.stale, s) := rfl
  unfold unlessStale
  rw [ServerOp.ask, Prog.run_bind, Prog.run_ask, hstep]
  cases s.stale <;> rfl

theorem Server.Reachable.step {t : Server (World Ref H) H} (h : s.Reachable) (hstep : Server.Step s t) :
    t.Reachable := by
  obtain ⟨maxBytes, now, hrun⟩ := h
  exact ⟨maxBytes, now, hrun.tail hstep⟩

theorem Server.Reachable.command (h : s.Reachable) (fuel : ℕ) (args : List Str) :
    (s.handle (shardedBackend H) fuel args).2.Reachable := h.step (.command fuel args)

theorem Server.reachable_new (maxBytes : ℤ) (now : Time) :
    (Server.new (.init maxBytes now) now : Server (World Ref H) H).Reachable :=
  ⟨maxBytes, now, .refl⟩

omit [Floats] [Spaces] [Printing] [Unicode] [Runtime] in
theorem Server.inv_step (hs : s.store.Inv) : ∀ op : ServerOp H,
    (s.step (shardedBackend H) op).2.store.Inv
  | .store c => hs.call c
  | .change c => hs.change c
  | .loadType _ | .storeType _ _ | .deleteType _ | .clearTypes | .getProof _ | .setProof _ _
  | .updateProof _ _ | .newEConst _ | .newECompose _ | .newMap | .newArray _ | .now
  | .staleRefused | .uptime => hs

theorem Server.Reachable.inv (h : s.Reachable) : s.store.Inv := by
  obtain ⟨maxBytes, now, hrun⟩ := h
  induction hrun with
  | refl => exact World.inv_init maxBytes now
  | tail _ hstep ih =>
    cases hstep with
    | command fuel args =>
      exact Prog.run_preserves (I := fun s => s.store.Inv) (shardedStep H)
        (fun _ op hs => Server.inv_step hs op) (handleCommand fuel args) _ ih
    | tick t ht => exact ih.step (.tick t ht)
    | sweep => exact ih.step .sweep
    | health stale => exact ih

end Wavicle.Resp3
