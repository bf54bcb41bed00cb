import Wavicle.Resp3.Server

/-! # Strings, lists, sets, sorted sets and streams

The cases of `HandleExtended` in `resp3/extended.go` whose data is the value of one key. Each is a
program from the arguments after the command's name to the reply.

A new map or array is allocated here right before it is stored; the source allocates some of them
earlier, which nobody can see. -/

namespace Wavicle.Resp3

open Lib Wavicle.Core

variable {H : Type} [Floats] [Spaces] [Printing]

/-! ### Counters and strings -/

/-- The commands that count. -/
inductive Counter where
  | incr
  | decr
  | incrBy
  | decrBy
  deriving DecidableEq

/-- What is added, given the arguments after the key. A `DECRBY` without a number adds one. -/
def Counter.delta : Counter → List Str → Option Int64
  | .decr, _ => some (-1)
  | .incrBy, d :: _ => parseInt d
  | .decrBy, d :: _ => (parseInt d).map (- ·)
  | _, _ => some 1

def storeText (key text : Str) : ServerProg H Unit := do
  let _ ← putValue key (.vString text)
  setKeyType key .string

def storeCounter (key : Str) (n : Int64) : ServerProg H Str := do
  storeText key (formatInt n)
  pure (integerReply n.toInt)

/-- `INCR`, `DECR`, `INCRBY`, `DECRBY` -/
def counter (cmd : Counter) : List Str → ServerProg H Str
  | [] => pure wrongArgs
  | key :: rest =>
    match cmd.delta rest with
    | none => pure (str "ERR value is not an integer\r\n")
    | some delta => do
      if ← assertKeyType key .string then
        match ← curValue key with
        | none => storeCounter key (0 + delta)
        | some v =>
          match toText v with
          | none => pure wrongTypeResp
          | some text =>
            match parseInt (trimSpace text) with
            | none => pure notAnInteger
            | some cur => storeCounter key (cur + delta)
      else pure wrongTypeResp

def storeAppended (key text : Str) : ServerProg H Str := do
  storeText key text
  pure (integerReply text.length)

def append : List Str → ServerProg H Str
  | key :: text :: _ => do
    if ← assertKeyType key .string then
      match ← curValue key with
      | none => storeAppended key text
      | some v =>
        match toText v with
        | none => pure wrongTypeResp
        | some cur => storeAppended key (cur ++ text)
    else pure wrongTypeResp
  | _ => pure wrongArgs

def strlen : List Str → ServerProg H Str
  | key :: _ => do
    match ← curValue key with
    | none => pure (integerReply 0)
    | some v =>
      match toText v with
      | none => pure wrongTypeResp
      | some text => pure (integerReply text.length)
  | [] => pure wrongArgs

def getset : List Str → ServerProg H Str
  | key :: text :: _ => do
    if ← assertKeyType key .string then
      let v ← curValue key
      storeText key text
      pure ((v.bind toText).elim nullReply formatBulkString)
    else pure wrongTypeResp
  | _ => pure wrongArgs

def setnx : List Str → ServerProg H Str
  | key :: text :: _ => do
    match ← curValue key with
    | some _ => pure (integerReply 0)
    | none => do
      storeText key text
      pure (integerReply 1)
  | _ => pure wrongArgs

/-- `time.Now().Add(time.Duration(n) * unit)`, for a unit in nanoseconds -/
def deadline (now : Time) (n unit : Int64) : Time := now + (n * unit).toInt

def second : Int64 := 1000000000

def millisecond : Int64 := 1000000

/-- `SETEX` and `PSETEX`, which differ in the unit -/
def setex (unit : Int64) : List Str → ServerProg H Str
  | key :: n :: text :: _ =>
    match parseInt n with
    | none => pure invalidExpire
    | some n =>
      if n ≤ 0 then pure invalidExpire
      else do
        let now ← ServerOp.ask .now
        let v ← ServerOp.ask (.newEConst (.vString text))
        let _ ← appendAtom (.eConst v) key [] (deadline now n unit)
        setKeyType key .string
        pure okReply
  | _ => pure wrongArgs

/-! ### Lists -/

/-- The end of a list at which elements are pushed and popped. -/
inductive ListEnd where
  | left
  | right
  deriving DecidableEq

variable [Runtime]

def pushElems : ListEnd → Slice → List Str → ServerProg H Slice
  | .left => consElems
  | .right => appendElems

/-- The end of `LPUSH` and `RPUSH`, from the slice that was there. -/
def storePushed (side : ListEnd) (key : Str) (arr : Slice) (elems : List Str) :
    ServerProg H Str := do
  let arr ← pushElems side arr elems
  let _ ← putValue key (.vArray arr.1 arr.2)
  setKeyType key .list
  pure (integerReply arr.2.length)

def push (side : ListEnd) : List Str → ServerProg H Str
  | key :: elem :: elems => do
    if ← assertKeyType key .list then
      match ← curValue key with
      | none => storePushed side key (.nil, []) (elem :: elems)
      | some v =>
        match asArray v with
        | none => pure wrongTypeResp
        | some arr => storePushed side key arr (elem :: elems)
    else pure wrongTypeResp
  | _ => pure wrongArgs

/-- How many elements are popped, given the arguments after the key. -/
def popCount : List Str → Option ℕ
  | [] => some 1
  | c :: _ =>
    match parseInt c with
    | none => none
    | some n => if n ≤ 0 then none else some n.toInt.toNat

/-- The elements that are popped, in the order of the reply, and the slice that is left. The slice that
`RPOP` leaves may still grow into its array. -/
def popped (arr : Slice) (count : ℕ) : ListEnd → List (Value Ref) × Slice
  | .left => (arr.2.take count, arr.1.from count, arr.2.drop count)
  | .right =>
    ((arr.2.drop (arr.2.length - count)).reverse, arr.1, arr.2.take (arr.2.length - count))

def poppedReply : List (Value Ref) → Str
  | [v] => formatBulkString (printed v)
  | vs => arrayReply (vs.map printed)

def storePopped (key : Str) (vs : List (Value Ref)) (rest : Slice) : ServerProg H Str := do
  if rest.2 = [] then
    let _ ← putTombstone key
    delKeyType key
    pure (poppedReply vs)
  else
    let _ ← putValue key (.vArray rest.1 rest.2)
    pure (poppedReply vs)

def pop (side : ListEnd) : List Str → ServerProg H Str
  | key :: rest => do
    if ← assertKeyType key .list then
      match popCount rest with
      | none => pure notAnInteger
      | some count => do
        match ← curValue key with
        | none => pure nullReply
        | some v =>
          match asArray v with
          | none => pure wrongTypeResp
          | some arr =>
            if arr.2 = [] then pure nullReply
            else
              let (vs, rest) := popped arr (min count arr.2.length) side
              storePopped key vs rest
    else pure wrongTypeResp
  | [] => pure wrongArgs

def llen : List Str → ServerProg H Str
  | key :: _ => do
    match ← curValue key with
    | none => pure (integerReply 0)
    | some v =>
      match asArray v with
      | none => pure wrongTypeResp
      | some arr => pure (integerReply arr.2.length)
  | [] => pure wrongArgs

/-- The elements from `start` to `stop`, where negative positions count from the end. -/
def window {α : Type} (start stop : ℤ) (l : List α) : List α :=
  let n : ℤ := l.length
  let start := if start < 0 then n + start else start
  let stop := if stop < 0 then n + stop else stop
  let start := if start < 0 then 0 else start
  let stop := if n ≤ stop then n - 1 else stop
  if n ≤ start ∨ stop < start then [] else (l.take (stop + 1).toNat).drop start.toNat

def lrange : List Str → ServerProg H Str
  | key :: start :: stop :: _ => do
    match ← curValue key with
    | none => pure (arrayReply [])
    | some v =>
      match asArray v with
      | none => pure wrongTypeResp
      | some arr =>
        match parseInt start, parseInt stop with
        | some start, some stop =>
          pure (arrayReply ((window start.toInt stop.toInt arr.2).map printed))
        | _, _ => pure notAnInteger
  | _ => pure wrongArgs

/-- The element at a position, which counts from the end if it is negative. -/
def elemAt {α : Type} (idx : ℤ) (l : List α) : Option α :=
  let idx := if idx < 0 then l.length + idx else idx
  if idx < 0 then none else l[idx.toNat]?

def lindex : List Str → ServerProg H Str
  | key :: idx :: _ => do
    match ← curValue key with
    | none => pure nullReply
    | some v =>
      match asArray v with
      | none => pure wrongTypeResp
      | some arr =>
        match parseInt idx with
        | none => pure notAnInteger
        | some idx =>
          pure ((elemAt idx.toInt arr.2).elim nullReply fun v => formatBulkString (printed v))
  | _ => pure wrongArgs

/-! ### Sets and sorted sets -/

abbrev Fields := List (Str × Value Ref)

def putFields (m : Fields) : Fields → ℕ × Fields
  | [] => (0, m)
  | (k, v) :: fs =>
    let (added, m') := putFields (SortedMap.put k v m) fs
    ((if (m.lookup k).isSome then added else added + 1), m')

/-- The end of `SADD` and `ZADD`: the map that was there is copied and the entries are added. -/
def storeAdded (key : Str) (t : KeyType) (m entries : Fields) : ServerProg H Str := do
  let r ← ServerOp.ask .newMap
  let (added, m) := putFields m entries
  let _ ← putValue key (.vRecord r m)
  setKeyType key t
  pure (integerReply added)

def sadd : List Str → ServerProg H Str
  | key :: member :: members => do
    let entries := (member :: members).map fun m => (m, .vInt 1)
    if ← assertKeyType key .set then
      match ← curValue key with
      | none => storeAdded key .set [] entries
      | some v =>
        match asSet v with
        | none => pure wrongTypeResp
        | some m => storeAdded key .set m.2 entries
    else pure wrongTypeResp
  | _ => pure wrongArgs

/-- The end of `SREM` and `ZREM`: the members are deleted from the map itself. -/
def storeRemoved (key : Str) (r : Ref) (m : Fields) (members : List Str) : ServerProg H Str := do
  let (m, removed) ← deleteMembers r m members
  if m = [] then
    let _ ← putTombstone key
    delKeyType key
    pure (integerReply removed)
  else
    let _ ← putValue key (.vRecord r m)
    pure (integerReply removed)

def srem : List Str → ServerProg H Str
  | key :: member :: members => do
    if ← assertKeyType key .set then
      match ← curValue key with
      | none => pure (integerReply 0)
      | some v =>
        match asSet v with
        | none => pure wrongTypeResp
        | some m => storeRemoved key m.1 m.2 (member :: members)
    else pure wrongTypeResp
  | _ => pure wrongArgs

def smembers : List Str → ServerProg H Str
  | key :: _ => do
    match ← curValue key with
    | none => pure (arrayReply [])
    | some v =>
      match asSet v with
      | none => pure wrongTypeResp
      | some m => pure (arrayReply (sortStrings (m.2.map (·.1))))
  | [] => pure wrongArgs

def scard : List Str → ServerProg H Str
  | key :: _ => do
    match ← curValue key with
    | none => pure (integerReply 0)
    | some v =>
      match asSet v with
      | none => pure wrongTypeResp
      | some m => pure (integerReply m.2.length)
  | [] => pure wrongArgs

def sismember : List Str → ServerProg H Str
  | key :: member :: _ => do
    match ← curValue key with
    | none => pure (integerReply 0)
    | some v =>
      match asSet v with
      | none => pure wrongTypeResp
      | some m => pure (integerReply (if (m.2.lookup member).isSome then 1 else 0))
  | _ => pure wrongArgs

def pairs : List Str → Option (List (Str × Str))
  | [a, b] => some [(a, b)]
  | a :: b :: l => (pairs l).map ((a, b) :: ·)
  | _ => none

/-- The members of a `ZADD` with their scores. -/
def scores : List (Str × Str) → Option Fields
  | [] => some []
  | (score, member) :: l =>
    match Floats.parseFloat score, scores l with
    | some bits, some fs => some ((member, .vFloat bits) :: fs)
    | _, _ => none

/-- What `ZADD` copies: the map of a sorted set, or an empty map. -/
def asZSetOrEmpty (v : Option (Value Ref)) : Option (Ref × Fields) :=
  (asRecord v).filter fun m => m.2 = [] ∨ m.2.all fun f => isScore f.2

def storeScores (key : Str) (m : Fields) (args : List (Str × Str)) : ServerProg H Str :=
  match scores args with
  | none => pure (str "ERR value is not a valid float\r\n")
  | some entries => storeAdded key .zset m entries

def zadd : List Str → ServerProg H Str
  | [] => pure wrongArgs
  | key :: rest =>
    match pairs rest with
    | none => pure wrongArgs
    | some args => do
      if ← assertKeyTypeAgain key .zset then
        match ← curValue key with
        | none => storeScores key [] args
        | some v =>
          match asZSetOrEmpty v with
          | none => pure wrongTypeResp
          | some m => storeScores key m.2 args
      else pure wrongTypeResp

def zscore : List Str → ServerProg H Str
  | key :: member :: _ => do
    match ← curValue key with
    | none => pure nullReply
    | some v =>
      match asZSet v with
      | none => pure wrongTypeResp
      | some m =>
        match m.2.lookup member with
        | some (.vFloat bits) => pure (formatBulkString (Floats.formatFloat bits))
        | _ => pure nullReply
  | _ => pure wrongArgs

def zcard : List Str → ServerProg H Str
  | key :: _ => do
    match ← curValue key with
    | none => pure (integerReply 0)
    | some v =>
      match asZSet v with
      | none => pure wrongTypeResp
      | some m => pure (integerReply m.2.length)
  | [] => pure wrongArgs

/-- `ZREM`, which does not ask for the type of the key -/
def zrem : List Str → ServerProg H Str
  | key :: member :: members => do
    match ← curValue key with
    | none => pure (integerReply 0)
    | some v =>
      match asZSet v with
      | none => pure wrongTypeResp
      | some m => storeRemoved key m.1 m.2 (member :: members)
  | _ => pure wrongArgs

def scored (f : Str × Value Ref) : Str × UInt64 :=
  match f.2 with
  | .vFloat bits => (f.1, bits)
  | _ => (f.1, 0)

/-- The comparison of `ZRANGE`: by score, then by member. -/
def scoredLess (x y : Str × UInt64) : Bool :=
  if Binary64.eq x.2 y.2 then x.1 < y.1 else Binary64.lt x.2 y.2

/-- `sort.Slice` with `scoredLess`. The order of the source depends on that of its map if a score is
no number. -/
def sortScored (l : List (Str × UInt64)) : List (Str × UInt64) :=
  l.insertionSort fun x y => scoredLess y x = false

def rangeReply (withScores : Bool) (l : List (Str × UInt64)) : Str :=
  if withScores then arrayReply (l.flatMap fun e => [e.1, Floats.formatFloat e.2])
  else arrayReply (l.map (·.1))

def zrange [Unicode] : List Str → ServerProg H Str
  | key :: start :: stop :: rest => do
    let withScores := rest.head?.map toUpper = some (str "WITHSCORES")
    match ← curValue key with
    | none => pure (arrayReply [])
    | some v =>
      match asZSet v with
      | none => pure wrongTypeResp
      | some m =>
        match parseInt start, parseInt stop with
        | some start, some stop =>
          pure (rangeReply withScores
            (window start.toInt stop.toInt (sortScored (m.2.map scored))))
        | _, _ => pure notAnInteger
  | _ => pure wrongArgs

/-! ### Streams -/

def parseStreamID (id : Str) : Option (Int64 × Int64) :=
  match splitOnce 45 id with
  | none => none
  | some (ms, seq) =>
    match parseInt ms, parseInt seq with
    | some ms, some seq => if ms < 0 ∨ seq < 0 then none else some (ms, seq)
    | _, _ => none

/-- `fmt.Sprintf("%d-0", time.Now().UnixMilli())` -/
def generatedID (now : Time) : Str := decimalInt (now / 10 ^ 6) ++ str "-0"

/-- The id of an `XADD`, if it is a good one. -/
def streamID (id : Str) : ServerProg H (Option Str) :=
  if id = str "*" then do
    let now ← ServerOp.ask .now
    pure (some (generatedID now))
  else pure ((parseStreamID id).map fun _ => id)

/-- The fields of a stream entry. A field `_id` among the arguments replaces the id. -/
def streamEntry (id : Str) (fields : List (Str × Str)) : Fields :=
  (putFields [(str "_id", .vString id)] (fields.map fun f => (f.1, .vString f.2))).2

def storeEntry (key id : Str) (arr : Slice) (fields : List (Str × Str)) : ServerProg H Str := do
  let r ← ServerOp.ask .newMap
  let arr ← appendElem arr (.vRecord r (streamEntry id fields))
  let _ ← putValue key (.vArray arr.1 arr.2)
  setKeyType key .stream
  pure (formatBulkString id)

def xadd : List Str → ServerProg H Str
  | key :: id :: rest =>
    match pairs rest with
    | none => pure wrongArgs
    | some fields => do
      if ← assertKeyType key .stream then
        match ← streamID id with
        | none => pure (str "ERR invalid stream ID, expected <millis>-<seq>\r\n")
        | some id => do
          match ← curValue key with
          | none => storeEntry key id (.nil, []) fields
          | some v =>
            match asArray v with
            | none => pure wrongTypeResp
            | some arr => storeEntry key id arr fields
      else pure wrongTypeResp
  | _ => pure wrongArgs

/-- A bound of `XRANGE`: absent for the open one, an error if it is no id. -/
def streamBound (openBound : Str) (id : Str) : Except Unit (Option (Int64 × Int64)) :=
  if id = openBound then .ok none
  else match parseStreamID id with
    | some b => .ok (some b)
    | none => .error ()

/-- The fields of a stream entry; an element that is no record has none. -/
def entryFields : Value Ref → Fields
  | .vRecord _ fields => fields
  | _ => []

def entryID (fields : Fields) : Str := (toText (fields.lookup (str "_id"))).getD []

def idBefore (x y : Int64 × Int64) : Bool := x.1 < y.1 ∨ x.1 = y.1 ∧ x.2 < y.2

def inRange (lo hi : Option (Int64 × Int64)) (v : Value Ref) : Bool :=
  match parseStreamID (entryID (entryFields v)) with
  | none => false
  | some id => lo.all (fun b => !idBefore id b) && hi.all fun b => !idBefore b id

/-- One entry in the reply of `XRANGE`. -/
def entryReply (v : Value Ref) : Str :=
  let fields := entryFields v
  let keys := sortStrings ((fields.map (·.1)).filter (· ≠ str "_id"))
  arrayHeader 2 ++ formatBulkString (entryID fields) ++
    arrayReply (keys.flatMap fun k => [k, ((fields.lookup k).map printed).getD []])

def xrange : List Str → ServerProg H Str
  | key :: lo :: hi :: _ => do
    match ← curValue key with
    | none => pure (arrayReply [])
    | some v =>
      match asArray v with
      | none => pure wrongTypeResp
      | some arr =>
        match streamBound (str "-") lo, streamBound (str "+") hi with
        | .ok lo, .ok hi =>
          let entries := arr.2.filter (inRange lo hi)
          pure (arrayHeader entries.length ++ entries.flatMap entryReply)
        | .error _, _ =>
          pure (str "ERR invalid stream ID, expected <millis>-<seq> or -\r\n")
        | _, .error _ => pure (str "ERR invalid stream ID, expected <millis>-<seq> or +\r\n")
  | _ => pure wrongArgs

end Wavicle.Resp3
