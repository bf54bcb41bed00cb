import Wavicle.Storage.ReadYourWrite
import Wavicle.Storage.Lawful
import Wavicle.Storage.Postgres

/-! # The write-through store

`storage/adapter.go`: a write goes to the primary database and then to the local cache. A read is answered from the
cache; on a miss, and for an atom older than thirty seconds, the database is asked, and what it has is appended to the
cache. The two methods are programs whose calls are the atomic steps. -/

namespace Wavicle.Storage

open Lib Wavicle.Core

/-- An operation of the store on one of its two tiers. -/
inductive TierOp (ι H : Type) where
  /-- `s.Primary.AppendAtom` -/
  | upsert (expr : Expr ι H) (path : Str)
  /-- `s.Local.AppendAtom`, the second step of a write -/
  | append (expr : Expr ι H) (path : Str) (expiresAt : Time)
  /-- `s.Primary.GetCurrent` -/
  | select (path : Str)
  /-- `s.Local.AppendAtom`, of the text that the database has -/
  | fill (path text : Str)
  | getCurrent (path : Str)
  | getAtom (hash : H)
  /-- `time.Now` -/
  | clock

/-- The answers: the error of a write if there is one, the text of a cell if it has one. -/
abbrev TierOp.Res {ι H : Type} : TierOp ι H → Type
  | .upsert _ _ => Option Str
  | .append _ _ _ => H
  | .select _ => Option Str
  | .fill _ _ => H
  | .getCurrent _ => Option (CausalAtom ι H)
  | .getAtom _ => Option (CausalAtom ι H)
  | .clock => Time

abbrev TierProg (ι H α : Type) := Prog (fun op : TierOp ι H => op.Res) α

def TierOp.ask {ι H : Type} (op : TierOp ι H) : TierProg ι H op.Res := Prog.ask op

/-- The state of a `WriteThroughStore`, over a sharded cache. The map of deadlines that it keeps is
never read. -/
structure WriteThrough (δ ι H : Type) where
  cache : World ι H
  db : δ

section

variable {δ ι H : Type} [DecidableEq H] [Hashing H] [Printing] [RuneClasses]

def extractAtomValue (a : CausalAtom ι H) : Option Str := a.expr.constValue.map Value.sprint

namespace WriteThrough

/-! ### The two methods -/

/-- The errors of the database after which a write goes to the cache all the same. -/
def tolerated (msg : Str) : Bool :=
  contains msg (str "invalid path format") || contains msg (str "invalid table name") ||
    contains msg (str "invalid column name") || contains msg (str "does not exist") ||
    contains msg (str "pq: relation")

/-- `AppendAtom`. The sharded cache ignores the causal parents and never refuses an append. -/
def appendAtom (expr : Expr ι H) (path : Str) (expiresAt : Time) : TierProg ι H (Except Str H) := do
  match ← TierOp.ask (.upsert expr path) with
  | none =>
    let hash ← TierOp.ask (.append expr path expiresAt)
    pure (.ok hash)
  | some msg =>
    if tolerated msg then
      let hash ← TierOp.ask (.append expr path expiresAt)
      pure (.ok hash)
    else pure (.error msg)

/-- What the database has for `path` is appended to the cache: the atom as it is found there. -/
def seed (path text : Str) : TierProg ι H (Option (CausalAtom ι H)) := do
  let hash ← TierOp.ask (.fill path text)
  TierOp.ask (.getAtom hash)

def aged (now : Time) (a : CausalAtom ι H) : Bool :=
  a.causalPast.length = 0 ∧ now - a.physicalTime > 30 * 10 ^ 9

def getCurrent (path : Str) : TierProg ι H (Option (CausalAtom ι H)) := do
  match ← TierOp.ask (.getCurrent path) with
  | some cached =>
    let now ← TierOp.ask .clock
    if aged now cached then
      match ← TierOp.ask (.select path) with
      | some text =>
        if extractAtomValue cached ≠ some text then
          let updated ← seed path text
          pure (some (updated.getD cached))
        else pure (some cached)
      | none => pure (some cached)
    else pure (some cached)
  | none =>
    match ← TierOp.ask (.select path) with
    | some text => seed path text
    | none => pure none

/-! ### The store as a service -/

variable (S : Sql δ ι)

def step (w : WriteThrough δ ι H) : (op : TierOp ι H) → op.Res × WriteThrough δ ι H
  | .upsert expr path =>
    match PostgresStore.appendAtom S w.db expr path with
    | .ok db => (none, { w with db := db })
    | .error msg => (some msg, w)
  | .append expr path expiresAt =>
    let (hash, cache) := w.cache.append expr path expiresAt
    (hash, { w with cache := cache })
  | .select path => (PostgresStore.getCurrent S w.db path, w)
  | .fill path text =>
    let (hash, cache) := w.cache.append (.eConst (.vString text)) path zeroTime
    (hash, { w with cache := cache })
  | .getCurrent path =>
    let (atom, cache) := w.cache.call ⟨.inner, .getCurrent path⟩
    (atom, { w with cache := cache })
  | .getAtom hash => (w.cache.cache.getAtom w.cache.now hash, w)
  | .clock => (w.cache.now, w)

/-- The service behind a `StoreProg`: the store that is given is the `WriteThroughStore`, the one
inside is its cache. All methods but the two above are those of the cache. -/
def call (w : WriteThrough δ ι H) (c : StoreCall ι H) : c.op.Res × WriteThrough δ ι H :=
  match c with
  | ⟨.given, .appendAtom expr path _ expiresAt⟩ => (appendAtom expr path expiresAt).run (step S) w
  | ⟨.given, .getCurrent path⟩ => (getCurrent path).run (step S) w
  | ⟨via, op⟩ =>
    let (r, cache) := w.cache.call ⟨via, op⟩
    (r, { w with cache := cache })

end WriteThrough

end

end Wavicle.Storage
