import Wavicle.Resp3.KeyCommands

/-! # The command dispatcher

`HandleCommand` of `resp3/server.go`: the core commands, and the dispatch to `HandleExtended` of the
others. Reads of single paths go through the cache of proofs.

The recursions of the engine end within a given `fuel`, or else the result is the fault `fuel`. -/

namespace Wavicle.Resp3

open Lib Wavicle.Core Storage Engine

variable {H : Type} [Floats] [Spaces] [Printing] [Unicode] [Runtime]

/-- What `HandleCommand` returns: a reply, or an error or panic. -/
abbrev Outcome := Except Fault Str

def failure (msg : Str) : Outcome := .error (.error msg)

def wrongNumber (cmd : Str) : Outcome :=
  failure (str "wrong number of arguments for '" ++ cmd ++ str "' command")

/-! ### Writing -/

/-- A text is appended under the hash of the current atom: the error, if there is one. -/
def appendText (expr : Expr Ref H) (path : Str) : ServerProg H (Except Str H) := do
  let prev ← getCurrent path
  appendAtom expr path (prev.toList.map (·.hash)) zeroTime

/-- `SET`, which interns the constant -/
def set : List Str → ServerProg H Outcome
  | path :: val :: _ => do
    if ← assertKeyType path .string then
      let v ← ServerOp.ask (.newEConst (.vString val))
      match ← appendText (.eConst v) path with
      | .error msg => pure (failure msg)
      | .ok _ => do
        setKeyType path .string
        pure (.ok okReply)
    else pure (failure wrongTypeMessage)
  | _ => pure (wrongNumber (str "set"))

/-- The loop of `MSET`. -/
def putPairs : List (Str × Str) → ServerProg H Outcome
  | [] => pure (.ok okReply)
  | (path, val) :: rest => do
    if ← assertKeyType path .string then
      match ← appendText (.eConst (.vString val)) path with
      | .error msg => pure (failure msg)
      | .ok _ => do
        setKeyType path .string
        putPairs rest
    else pure (failure wrongTypeMessage)

def mset (rest : List Str) : ServerProg H Outcome :=
  match pairs rest with
  | none => pure (wrongNumber (str "mset"))
  | some ps => putPairs ps

def hset : List Str → ServerProg H Outcome
  | key :: field :: val :: _ => do
    if ← assertKeyTypeAgain key .hash then
      match ← appendText (.eConst (.vString val)) (fieldPath key field) with
      | .error msg => pure (failure msg)
      | .ok _ => do
        setKeyType key .hash
        pure (.ok (integerReply 1))
    else pure (failure wrongTypeMessage)
  | _ => pure (wrongNumber (str "hset"))

/-- The loop of `DEL`. A tombstone is deleted again. -/
def deletePaths : List Str → ServerProg H ℕ
  | [] => pure 0
  | path :: paths => do
    match ← getCurrent path with
    | none => deletePaths paths
    | some prev => do
      match ← appendAtom (.eConst .vNull) path [prev.hash] zeroTime with
      | .error _ => deletePaths paths
      | .ok _ => do
        delKeyType path
        let deleted ← deletePaths paths
        pure (deleted + 1)

def del : List Str → ServerProg H Outcome
  | [] => pure (wrongNumber (str "del"))
  | paths => do
    let deleted ← deletePaths paths
    pure (.ok (integerReply deleted))

def expire : List Str → ServerProg H Outcome
  | path :: n :: _ =>
    match parseInt n with
    | none => pure (failure (str "invalid expire time"))
    | some n =>
      if n ≤ 0 then pure (.ok (integerReply 0))
      else do
        match ← liveAtom path with
        | none => pure (.ok (integerReply 0))
        | some current => do
          let now ← ServerOp.ask .now
          match ← appendAtom current.expr path [current.hash] (deadline now n second) with
          | .error msg => pure (failure msg)
          | .ok _ => pure (.ok (integerReply 1))
  | _ => pure (wrongNumber (str "expire"))

/-! ### Reading -/

def countLive : List Str → ServerProg H ℕ
  | [] => pure 0
  | path :: paths => do
    let atom ← liveAtom path
    let count ← countLive paths
    pure (if atom.isSome then count + 1 else count)

def exists' : List Str → ServerProg H Outcome
  | [] => pure (wrongNumber (str "exists"))
  | paths => do
    let count ← countLive paths
    pure (.ok (integerReply count))

def dbsize : ServerProg H Outcome := do
  let paths ← frontierPaths
  let count ← countLive paths
  pure (.ok (integerReply count))

/-- `int(d.Seconds())`: the seconds and the nanoseconds of `d` are added as doubles, and the sum is cut
off. -/
def wholeSeconds (d : ℕ) : ℕ :=
  let sec := d / 10 ^ 9
  let nsec := d % 10 ^ 9
  if nsec = 0 then sec
  else
    -- `float64(nsec) / 1e9` has 53 bits, the last one worth `2 ^ -s`
    let s := Nat.clog 2 ((2 ^ 52 * 10 ^ 9 + nsec - 1) / nsec)
    let sum := Binary64.round53 (sec * 2 ^ s + Binary64.roundHalfEven (nsec * 2 ^ s) (10 ^ 9))
    sum.1 * 2 ^ sum.2 / 2 ^ s

def ttl : List Str → ServerProg H Outcome
  | path :: _ => do
    match ← liveAtom path with
    | none => pure (.ok (integerReply (-2)))
    | some current =>
      if current.expiresAt = zeroTime then pure (.ok (integerReply (-1)))
      else do
        let now ← ServerOp.ask .now
        let d := timeUntil now current.expiresAt
        pure (.ok (integerReply (if d ≤ 0 then -2 else wholeSeconds d.toNat)))
  | [] => pure (wrongNumber (str "ttl"))

section Proofs

variable [DecidableEq H] [Hashing H]

def queryHash (path : Str) : H := Hashing.sha3 (path ++ [0])

/-- `formatValue`, also of nil; an error is no value -/
def formatResult : Except Fault (Value Ref) → Except Fault (Option Str)
  | .ok v => .ok (some (formatValue v))
  | .error .nilValue => .ok (some (formatBulkString (str "<nil>")))
  | .error (.error _) => .ok none
  | .error f => .error f

/-- The reply from a cached proof, if there is one and it can be brought up to date. -/
def readCached (fuel : ℕ) (path : Str) : ServerProg H (Except Fault (Option Str)) := do
  match ← ServerOp.ask (.getProof (queryHash path)) with
  | none => pure (.ok none)
  | some proof => do
    let (r, proof) ← onStore (reduceIncremental fuel proof)
    ServerOp.ask (.updateProof (queryHash path) proof)
    pure (formatResult r)

def readComposed (fuel : ℕ) (path : Str) : ServerProg H Outcome := do
  match ← onStore (composeProof fuel path) with
  | .error f => pure (.error f)
  | .ok proof => do
    ServerOp.ask (.setProof (queryHash path) proof)
    pure (.ok (formatValue proof.value))

def readProof (fuel : ℕ) (path : Str) : ServerProg H Outcome := do
  match ← readCached fuel path with
  | .error f => pure (.error f)
  | .ok (some reply) => pure (.ok reply)
  | .ok none => readComposed fuel path

def orNull : Outcome → Outcome
  | .error (.error _) => .ok nullReply
  | r => r

/-- The read of one path by `MGET` and `HGET`. -/
def readPath (fuel : ℕ) (path : Str) : ServerProg H Outcome := do
  match ← liveAtom path with
  | none => pure (.ok nullReply)
  | some _ => do
    let r ← readProof fuel path
    pure (orNull r)

/-- The last part of `GET`, for a path. -/
def getPath (fuel : ℕ) (path : Str) : ServerProg H Outcome := do
  match ← liveAtom path with
  | none => pure (.ok nullReply)
  | some _ => readProof fuel path

/-- The composite of a query is reduced: its reply, if it has one. -/
def readQuery (fuel : ℕ) (expr : Expr Ref H) : ServerProg H (Except Fault (Option Str)) := do
  let r ← onStore (reduceProofTree fuel expr)
  pure (formatResult r)

/-- `GET` of a `SELECT`: the proof of the primary path, or else the composite. If there is neither, the
primary path is read like a key; if the query is not understood, its text is the key. -/
def getQuery (fuel : ℕ) (query : Str) : ServerProg H Outcome := do
  match ← onStore (sqlToProofTree query) with
  | .error (.error _) => getPath fuel query
  | .error f => pure (.error f)
  | .ok (atoms, path) => do
    let expr ← ServerOp.ask (.newECompose atoms)
    match ← readCached fuel path with
    | .error f => pure (.error f)
    | .ok (some reply) => pure (.ok reply)
    | .ok none => do
      match ← readQuery fuel expr with
      | .error f => pure (.error f)
      | .ok (some reply) => pure (.ok reply)
      | .ok none => getPath fuel path

/-- `staleRefused`, before a read -/
def unlessStale (p : ServerProg H Outcome) : ServerProg H Outcome := do
  match ← ServerOp.ask .staleRefused with
  | some msg => pure (failure msg)
  | none => p

/-- A path that `GET` takes for a query. -/
def isSelect (path : Str) : Bool := hasPrefix (toUpper path) (str "SELECT")

def get (fuel : ℕ) : List Str → ServerProg H Outcome
  | path :: _ => if isSelect path then getQuery fuel path else getPath fuel path
  | [] => pure (wrongNumber (str "get"))

def readPaths (fuel : ℕ) : List Str → ServerProg H Outcome
  | [] => pure (.ok [])
  | path :: paths => do
    match ← readPath fuel path with
    | .error f => pure (.error f)
    | .ok reply => do
      let replies ← readPaths fuel paths
      pure (replies.map (reply ++ ·))

def mget (fuel : ℕ) : List Str → ServerProg H Outcome
  | [] => pure (wrongNumber (str "mget"))
  | paths => do
    let replies ← readPaths fuel paths
    pure (replies.map (arrayHeader paths.length ++ ·))

def hget (fuel : ℕ) : List Str → ServerProg H Outcome
  | key :: field :: _ => readPath fuel (fieldPath key field)
  | _ => pure (wrongNumber (str "hget"))

def livePaths : List Str → ServerProg H (List Str)
  | [] => pure []
  | path :: paths => do
    let atom ← liveAtom path
    let live ← livePaths paths
    pure (if atom.isSome then path :: live else live)

/-- The second loop of `HGETALL`: the fields with their values. -/
def readFields (fuel : ℕ) (childPrefix : Str) : List Str → ServerProg H Outcome
  | [] => pure (.ok [])
  | path :: paths => do
    match orNull (← readProof fuel path) with
    | .error f => pure (.error f)
    | .ok reply => do
      let replies ← readFields fuel childPrefix paths
      pure (replies.map (formatBulkString (path.drop childPrefix.length) ++ reply ++ ·))

def hgetall (fuel : ℕ) : List Str → ServerProg H Outcome
  | key :: _ => do
    let childPrefix := key ++ str ":"
    let paths ← frontierPaths
    let live ← livePaths (paths.filter fun p => hasPrefix p childPrefix)
    let replies ← readFields fuel childPrefix live
    pure (replies.map (arrayHeader (live.length * 2) ++ ·))
  | [] => pure (wrongNumber (str "hgetall"))

end Proofs

/-! ### The dispatch -/

/-- The commands of `HandleCommand` itself. -/
inductive CoreCommand where
  | ping | set | get | del | exists' | dbsize | mget | mset | hset | hget | hgetall | expire | ttl
  deriving DecidableEq

/-- The commands of `HandleExtended`. -/
inductive ExtendedCommand where
  | counter (cmd : Counter)
  | append | strlen | getset | setnx | setex | psetex
  | push (side : ListEnd) | pop (side : ListEnd) | llen | lrange | lindex
  | sadd | srem | smembers | scard | sismember
  | zadd | zscore | zcard | zrem | zrange
  | hmset | hmget | hdel | hlen | hexists | hkeys | hvals
  | type | keys | scan | info | hello | client | flushdb
  | pexpire | pttl | persist | eval
  | xadd | xlen | xrange
  deriving DecidableEq

def coreNames : List (Str × CoreCommand) :=
  [(str "PING", .ping), (str "SET", .set), (str "GET", .get), (str "DEL", .del),
    (str "EXISTS", .exists'), (str "DBSIZE", .dbsize), (str "MGET", .mget), (str "MSET", .mset),
    (str "HSET", .hset), (str "HGET", .hget), (str "HGETALL", .hgetall), (str "EXPIRE", .expire),
    (str "TTL", .ttl)]

def extendedNames : List (Str × ExtendedCommand) :=
  [(str "INCR", .counter .incr), (str "DECR", .counter .decr), (str "INCRBY", .counter .incrBy),
    (str "DECRBY", .counter .decrBy), (str "APPEND", .append), (str "STRLEN", .strlen),
    (str "GETSET", .getset), (str "SETNX", .setnx), (str "SETEX", .setex), (str "PSETEX", .psetex),
    (str "LPUSH", .push .left), (str "RPUSH", .push .right), (str "LPOP", .pop .left),
    (str "RPOP", .pop .right), (str "LLEN", .llen), (str "LRANGE", .lrange), (str "LINDEX", .lindex),
    (str "SADD", .sadd), (str "SREM", .srem), (str "SMEMBERS", .smembers), (str "SCARD", .scard),
    (str "SISMEMBER", .sismember), (str "ZADD", .zadd), (str "ZSCORE", .zscore),
    (str "ZCARD", .zcard), (str "ZREM", .zrem), (str "ZRANGE", .zrange), (str "HMSET", .hmset),
    (str "HMGET", .hmget), (str "HDEL", .hdel), (str "HLEN", .hlen), (str "HEXISTS", .hexists),
    (str "HKEYS", .hkeys), (str "HVALS", .hvals), (str "TYPE", .type), (str "KEYS", .keys),
    (str "SCAN", .scan), (str "INFO", .info), (str "HELLO", .hello), (str "CLIENT", .client),
    (str "CONFIG", .client), (str "SELECT", .client), (str "AUTH", .client),
    (str "FLUSHDB", .flushdb), (str "FLUSHALL", .flushdb), (str "PEXPIRE", .pexpire),
    (str "PTTL", .pttl), (str "PERSIST", .persist), (str "EVAL", .eval), (str "EVALSHA", .eval),
    (str "SCRIPT", .eval), (str "FUNCTION", .eval), (str "XADD", .xadd), (str "XLEN", .xlen),
    (str "XRANGE", .xrange)]

/-- `HandleExtended`, on the arguments after the name -/
def handleExtended (cmd : ExtendedCommand) (rest : List Str) : ServerProg H Str :=
  match cmd with
  | .counter c => counter c rest
  | .append => append rest
  | .strlen => strlen rest
  | .getset => getset rest
  | .setnx => setnx rest
  | .setex => setex second rest
  | .psetex => setex millisecond rest
  | .push side => push side rest
  | .pop side => pop side rest
  | .llen => llen rest
  | .lrange => lrange rest
  | .lindex => lindex rest
  | .sadd => sadd rest
  | .srem => srem rest
  | .smembers => smembers rest
  | .scard => scard rest
  | .sismember => sismember rest
  | .zadd => zadd rest
  | .zscore => zscore rest
  | .zcard => zcard rest
  | .zrem => zrem rest
  | .zrange => zrange rest
  | .hmset => hmset rest
  | .hmget => hmget rest
  | .hdel => hdel rest
  | .hlen => hlen rest
  | .hexists => hexists rest
  | .hkeys => hkeys rest
  | .hvals => hvals rest
  | .type => typeCommand rest
  | .keys => keys rest
  | .scan => scan rest
  | .info => info
  | .hello => pure (str "%1\r\n+server\r\n+wavicle\r\n")
  | .client => pure okReply
  | .flushdb => flushdb
  | .pexpire => pexpire rest
  | .pttl => pttl rest
  | .persist => persist rest
  | .eval => pure (str "NOSCRIPT Lua scripting is disabled in Wavicle proof mode\r\n")
  | .xadd => xadd rest
  | .xlen => llen rest
  | .xrange => xrange rest

def isExtendedRead : ExtendedCommand → Bool
  | .strlen | .llen | .lrange | .lindex | .pop _ | .smembers | .scard | .sismember | .zscore
  | .zcard | .zrange | .hmget | .hlen | .hexists | .hkeys | .hvals | .xlen | .xrange | .keys
  | .scan => true
  | _ => false

def runExtended (cmd : ExtendedCommand) (rest : List Str) : ServerProg H Outcome :=
  let p : ServerProg H Outcome := do
    let reply ← handleExtended cmd rest
    pure (.ok reply)
  if isExtendedRead cmd then unlessStale p else p

variable [DecidableEq H] [Hashing H]

def runCore (fuel : ℕ) (cmd : CoreCommand) (rest : List Str) : ServerProg H Outcome :=
  match cmd with
  | .ping => pure (.ok (str "+PONG\r\n"))
  | .set => set rest
  | .get => unlessStale (get fuel rest)
  | .del => del rest
  | .exists' => exists' rest
  | .dbsize => dbsize
  | .mget => unlessStale (mget fuel rest)
  | .mset => mset rest
  | .hset => hset rest
  | .hget => unlessStale (hget fuel rest)
  | .hgetall => unlessStale (hgetall fuel rest)
  | .expire => expire rest
  | .ttl => ttl rest

def handleCommand (fuel : ℕ) : List Str → ServerProg H Outcome
  | [] => pure (failure (str "empty command"))
  | name :: rest =>
    let cmd := toUpper name
    match coreNames.lookup cmd, extendedNames.lookup cmd with
    | some c, _ => runCore fuel c rest
    | none, some c => runExtended c rest
    | none, none => pure (failure (str "unknown command '" ++ cmd ++ str "'"))

end Wavicle.Resp3
