import Wavicle.Engine.ProofCache
import Wavicle.Engine.Tree

/-! # What a command can do

The handlers of `resp3/server.go` and `resp3/extended.go` are programs over the operations of a `Server`: calls of
its store, of the type index and of the proof cache, the interning of constants, and the allocation and change of
maps and arrays. Telemetry is left out; what `staleRefused` answers is given. -/

namespace Wavicle.Resp3

open Lib Wavicle.Core Storage Engine

/-- The types of the index `keyTypes`. -/
inductive KeyType where
  | string
  | list
  | set
  | zset
  | hash
  | stream
  deriving DecidableEq

/-- The runtime of the language. -/
class Runtime where
  /-- the capacity of the array that `append` allocates, from the old capacity and the new length -/
  growslice : ℕ → ℕ → ℕ

/-- What a command asks of its server, one operation at a time. -/
inductive ServerOp (H : Type) where
  | store (c : StoreCall Ref H)
  /-- `keyTypes.Load` -/
  | loadType (key : Str)
  /-- `keyTypes.Store` -/
  | storeType (key : Str) (t : KeyType)
  /-- `keyTypes.Delete` -/
  | deleteType (key : Str)
  | clearTypes
  /-- `proofCache.Get` -/
  | getProof (query : H)
  /-- `proofCache.Set` -/
  | setProof (query : H) (proof : MaterializedProof Ref H)
  /-- what `ReduceIncremental` does to the proof it was given -/
  | updateProof (query : H) (proof : MaterializedProof Ref H)
  /-- `core.NewEConst(v)`, of which the value is returned: an interned one may stand for `v` -/
  | newEConst (v : Value Ref)
  | newECompose (atoms : List H)
  | newMap
  | newArray (cap : ℕ)
  | change (c : Change)
  | now
  | staleRefused
  /-- `time.Since(serverStartTime)`, in nanoseconds -/
  | uptime

variable {H α : Type}

abbrev ServerOp.Res : ServerOp H → Type
  | .store c => c.op.Res
  | .loadType _ => Option KeyType
  | .storeType _ _ => Unit
  | .deleteType _ => Unit
  | .clearTypes => Unit
  | .getProof _ => Option (MaterializedProof Ref H)
  | .setProof _ _ => Unit
  | .updateProof _ _ => Unit
  | .newEConst _ => Value Ref
  | .newECompose _ => Expr Ref H
  | .newMap => Ref
  | .newArray _ => Ref
  | .change _ => Unit
  | .now => Time
  | .staleRefused => Option Str
  | .uptime => ℕ

abbrev ServerProg (H α : Type) := Prog (fun op : ServerOp H => op.Res) α

def ServerOp.ask (op : ServerOp H) : ServerProg H op.Res := Prog.ask op

def onStore : StoreProg Ref H α → ServerProg H α
  | .ret a => .ret a
  | .call c k => .call (.store c) fun r => onStore (k r)

/-! ### The store -/

def getCurrent (path : Str) : ServerProg H (Option (CausalAtom Ref H)) :=
  ServerOp.ask (.store ⟨.given, .getCurrent path⟩)

def appendAtom (expr : Expr Ref H) (path : Str) (parents : List H) (expiresAt : Time) :
    ServerProg H (Except Str H) :=
  ServerOp.ask (.store ⟨.given, .appendAtom expr path parents expiresAt⟩)

def frontierPaths : ServerProg H (List Str) := ServerOp.ask (.store ⟨.given, .frontierPaths⟩)

def isTombstone (a : CausalAtom Ref H) : Bool :=
  match a.expr with
  | .eConst .vNull => true
  | _ => false

def liveAtom (path : Str) : ServerProg H (Option (CausalAtom Ref H)) := do
  let atom ← getCurrent path
  pure (atom.filter fun a => !isTombstone a)

/-- `curValue`: the value of the live atom, which is nil if its expression is no constant -/
def curValue (path : Str) : ServerProg H (Option (Option (Value Ref))) := do
  let atom ← liveAtom path
  pure (atom.map fun a => a.expr.constValue)

def putValue (path : Str) (v : Value Ref) : ServerProg H (Except Str H) := do
  let v ← ServerOp.ask (.newEConst v)
  appendAtom (.eConst v) path [] zeroTime

/-- `s.store.AppendAtom(&core.EConst{Value: core.VNull{}}, path, nil, time.Time{})` -/
def putTombstone (path : Str) : ServerProg H (Except Str H) :=
  appendAtom (.eConst .vNull) path [] zeroTime

/-! ### Values -/

/-- `toString`, which fails on nil and on what has no text -/
def toText [Floats] : Option (Value Ref) → Option Str
  | some (.vString s) => some s
  | some (.vInt n) => some (formatInt n)
  | some (.vFloat bits) => some (Floats.formatFloat bits)
  | some (.vBool b) => some (if b then str "1" else str "0")
  | _ => none

/-- `if str, ok := toString(v); ok { str } else { fmt.Sprint(v) }` -/
def printed [Floats] [Printing] (v : Value Ref) : Str := (toText (some v)).getD v.sprint

def asArray : Option (Value Ref) → Option (Ref × List (Value Ref))
  | some (.vArray r elems) => some (r, elems)
  | _ => none

def asRecord : Option (Value Ref) → Option (Ref × List (Str × Value Ref))
  | some (.vRecord r fields) => some (r, fields)
  | _ => none

def isMember : Value Ref → Bool
  | .vInt n => n = 1
  | _ => false

def isScore : Value Ref → Bool
  | .vFloat _ => true
  | _ => false

/-- The map of a value with `isSetRecord` -/
def asSet (v : Option (Value Ref)) : Option (Ref × List (Str × Value Ref)) :=
  (asRecord v).filter fun m => m.2.all fun f => isMember f.2

/-- The map of a value with `isZSetRecord` -/
def asZSet (v : Option (Value Ref)) : Option (Ref × List (Str × Value Ref)) :=
  (asRecord v).filter fun m => m.2 ≠ [] ∧ m.2.all fun f => isScore f.2

/-! ### The type index -/

def setKeyType (key : Str) (t : KeyType) : ServerProg H Unit := ServerOp.ask (.storeType key t)

def delKeyType (key : Str) : ServerProg H Unit := ServerOp.ask (.deleteType key)

/-- The type that `keyTypeOf` infers from a value. -/
def inferType (v : Option (Value Ref)) : KeyType :=
  match v with
  | some (.vArray _ (.vRecord _ fields :: _)) =>
    if (fields.lookup (str "_id")).isSome then .stream else .list
  | some (.vArray _ _) => .list
  | some (.vRecord _ _) =>
    if (asZSet v).isSome then .zset else if (asSet v).isSome then .set else .hash
  | _ => .string

/-- `keyTypeOf`, with `none` for `"none"`: the type in the index, or else the one inferred from the
value, or else hash if there is a path below the key. -/
def keyTypeOf (key : Str) : ServerProg H (Option KeyType) := do
  match ← ServerOp.ask (.loadType key) with
  | some t => pure (some t)
  | none => do
    match ← curValue key with
    | some v => do
      setKeyType key (inferType v)
      pure (some (inferType v))
    | none => do
      let paths ← frontierPaths
      let childPrefix := key ++ str ":"
      if paths.any fun p => childPrefix.length < p.length ∧ hasPrefix p childPrefix then do
        setKeyType key .hash
        pure (some .hash)
      else pure none

def isHashKey (key : Str) : ServerProg H Bool := do
  let t ← ServerOp.ask (.loadType key)
  pure (t = some .hash)

/-- `assertKeyType`: whether it returns no error -/
def assertKeyType (key : Str) (want : KeyType) : ServerProg H Bool := do
  let t ← keyTypeOf key
  pure (t = none ∨ t = some want)

/-- The type test of `HSET`, `HMSET` and `ZADD`, which looks a second time. -/
def assertKeyTypeAgain (key : Str) (want : KeyType) : ServerProg H Bool := do
  if ← assertKeyType key want then pure true
  else do
    let t ← keyTypeOf key
    pure (t = none)

/-! ### Replies -/

/-- `formatBulkString`, and also `bulkString` -/
def formatBulkString (s : Str) : Str :=
  str "$" ++ decimal s.length ++ str "\r\n" ++ s ++ str "\r\n"

def integerReply (n : ℤ) : Str := str ":" ++ decimalInt n ++ str "\r\n"

/-- `fmt.Sprintf("*%d\r\n", n)`, which begins an array -/
def arrayHeader (n : ℕ) : Str := str "*" ++ decimal n ++ str "\r\n"

def arrayReply (l : List Str) : Str := arrayHeader l.length ++ l.flatMap formatBulkString

def nullReply : Str := str "$-1\r\n"

def okReply : Str := str "+OK\r\n"

def wrongArgs : Str := str "ERR wrong number of arguments\r\n"

def wrongTypeMessage : Str := str "WRONGTYPE Operation against a key holding the wrong kind of value"

def wrongTypeResp : Str := str "-ERR " ++ wrongTypeMessage ++ str "\r\n"

def notAnInteger : Str := str "ERR value is not an integer or out of range\r\n"

def invalidExpire : Str := str "ERR invalid expire time\r\n"

def formatValue [Printing] : Value Ref → Str
  | .vRecord _ [(_, v)] => formatBulkString v.sprint
  | v => formatBulkString v.sprint

/-! ### Maps and slices -/

variable [Runtime]

abbrev Slice := Ref × List (Value Ref)

/-- `append(arr, v)`: in the array of `arr` if there is room, and else in a new one -/
def appendElem (arr : Slice) (v : Value Ref) : ServerProg H Slice :=
  if arr.2.length < arr.1.cap then do
    ServerOp.ask (.change (.assign arr.1.id (arr.1.offset + arr.2.length) v))
    pure (arr.1, arr.2 ++ [v])
  else do
    let r ← ServerOp.ask (.newArray (Runtime.growslice arr.1.cap (arr.2.length + 1)))
    pure (r, arr.2 ++ [v])

def consElem (v : Value Ref) (arr : Slice) : ServerProg H Slice := do
  let literal ← ServerOp.ask (.newArray 1)
  if arr.2 = [] then pure (literal, [v])
  else do
    let r ← ServerOp.ask (.newArray (Runtime.growslice 1 (arr.2.length + 1)))
    pure (r, v :: arr.2)

def appendElems : Slice → List Str → ServerProg H Slice
  | arr, [] => pure arr
  | arr, e :: es => do
    let arr ← appendElem arr (.vString e)
    appendElems arr es

def consElems : Slice → List Str → ServerProg H Slice
  | arr, [] => pure arr
  | arr, e :: es => do
    let arr ← consElem (.vString e) arr
    consElems arr es

/-- The loop of `SREM` and `ZREM`: the members that are in the map are deleted from it. The fields
that are left, and how many were deleted. -/
def deleteMembers (r : Ref) : List (Str × Value Ref) → List Str →
    ServerProg H (List (Str × Value Ref) × ℕ)
  | fields, [] => pure (fields, 0)
  | fields, m :: ms =>
    if (fields.lookup m).isSome then do
      ServerOp.ask (.change (.delete r.id m))
      let (fields, removed) ← deleteMembers r (fields.filter (·.1 ≠ m)) ms
      pure (fields, removed + 1)
    else deleteMembers r fields ms

/-! ### Plain instances

For runs on fixed inputs: a hash is its text, letters have no case, and there are no spaces and no floats. -/

abbrev plainHashing : Hashing Str := ⟨id, id, fun _ => 0⟩

abbrev plainUnicode : Unicode := ⟨id, id⟩

abbrev plainFloats : Floats := ⟨fun _ => none, fun _ => []⟩

abbrev plainSpaces : Spaces := ⟨id⟩

abbrev plainPrinting : Printing := ⟨fun _ => []⟩

abbrev plainRuntime : Runtime := ⟨fun _ len => len⟩

namespace Plain

attribute [scoped instance] plainHashing plainUnicode plainFloats plainSpaces plainPrinting plainRuntime

end Plain

end Wavicle.Resp3
