import Wavicle.Resp3.ValueCommands

/-! # Hashes and the key space

The remaining cases of `HandleExtended` and those of `handleHashExtended` in `resp3/extended.go`. A
hash has no value of its own: its fields are the paths `key:field`. -/

namespace Wavicle.Resp3

open Lib Wavicle.Core

variable {H : Type} [Floats] [Printing]

/-! ### Hashes -/

def fieldPath (key field : Str) : Str := key ++ str ":" ++ field

def putHashFields (key : Str) : List (Str × Str) → ServerProg H Unit
  | [] => pure ()
  | (field, text) :: fields => do
    let _ ← putValue (fieldPath key field) (.vString text)
    putHashFields key fields

def hmset : List Str → ServerProg H Str
  | [] => pure wrongArgs
  | key :: rest =>
    match pairs rest with
    | none => pure wrongArgs
    | some fields => do
      if ← assertKeyTypeAgain key .hash then
        putHashFields key fields
        setKeyType key .hash
        pure okReply
      else pure wrongTypeResp

def hashReplies (key : Str) : List Str → ServerProg H Str
  | [] => pure []
  | field :: fields => do
    let v ← curValue (fieldPath key field)
    let replies ← hashReplies key fields
    pure ((v.bind toText).elim nullReply formatBulkString ++ replies)

def hmget : List Str → ServerProg H Str
  | key :: field :: fields => do
    let replies ← hashReplies key (field :: fields)
    pure (arrayHeader (field :: fields).length ++ replies)
  | _ => pure wrongArgs

/-- The loop of `HDEL` over the fields. A field that is a tombstone is deleted again. -/
def deleteFields (key : Str) : List Str → ServerProg H ℕ
  | [] => pure 0
  | field :: fields => do
    match ← getCurrent (fieldPath key field) with
    | none => deleteFields key fields
    | some _ => do
      let _ ← putTombstone (fieldPath key field)
      let deleted ← deleteFields key fields
      pure (deleted + 1)

def anyLive : List Str → ServerProg H Bool
  | [] => pure false
  | p :: ps => do
    match ← curValue p with
    | some _ => pure true
    | none => anyLive ps

/-- The end of `HDEL`: a hash without live fields loses its type. -/
def dropEmptyHash (key : Str) : ServerProg H Unit := do
  if (← keyTypeOf key) = some .hash then
    let paths ← frontierPaths
    let remain ← anyLive (paths.filter fun p => hasPrefix p (key ++ str ":"))
    if remain then pure () else delKeyType key
  else pure ()

def hdel : List Str → ServerProg H Str
  | key :: field :: fields => do
    let deleted ← deleteFields key (field :: fields)
    dropEmptyHash key
    pure (integerReply deleted)
  | _ => pure wrongArgs

/-- The fields with a text among the paths below `childPrefix`. -/
def gatherFields (childPrefix : Str) : List Str → ServerProg H (List (Str × Str))
  | [] => pure []
  | p :: ps => do
    let v ← curValue p
    let fields ← gatherFields childPrefix ps
    pure ((v.bind toText).elim fields fun text =>
      SortedMap.put (trimPrefix p childPrefix) text fields)

/-- The fields of a hash and their texts, in the order of the fields. -/
def hashFields (key : Str) : ServerProg H (List (Str × Str)) := do
  let paths ← frontierPaths
  gatherFields (key ++ str ":") (paths.filter fun p => hasPrefix p (key ++ str ":"))

def hlen : List Str → ServerProg H Str
  | key :: _ => do
    let fields ← hashFields key
    pure (integerReply fields.length)
  | [] => pure wrongArgs

def hexists : List Str → ServerProg H Str
  | key :: field :: _ => do
    let fields ← hashFields key
    pure (integerReply (if (fields.lookup field).isSome then 1 else 0))
  | _ => pure wrongArgs

def hkeys : List Str → ServerProg H Str
  | key :: _ => do
    let fields ← hashFields key
    pure (arrayReply (fields.map (·.1)))
  | [] => pure wrongArgs

def hvals : List Str → ServerProg H Str
  | key :: _ => do
    let fields ← hashFields key
    pure (arrayReply (fields.map (·.2)))
  | [] => pure wrongArgs

/-! ### The key space -/

def typeReply : Option (Value Ref) → Str
  | some (.vArray _ _) => str "+list\r\n"
  | some (.vRecord _ _) => str "+hash\r\n"
  | _ => str "+string\r\n"

/-- `TYPE`, which goes by the value and not by the index -/
def typeCommand : List Str → ServerProg H Str
  | key :: _ => do
    match ← curValue key with
    | some v => pure (typeReply v)
    | none => do
      let paths ← frontierPaths
      if paths.any fun p => hasPrefix p (key ++ str ":") then pure (str "+hash\r\n")
      else pure (str "+none\r\n")
  | [] => pure wrongArgs

/-- The key under which a path is listed: the hash it is a field of, or the path itself. -/
def listedKey (p : Str) : ServerProg H Str :=
  match beforeLast 58 p with
  | none => pure p
  | some parent => do
    if ← isHashKey parent then pure parent else pure p

/-- The loop of `KEYS` and `SCAN`: the keys with the prefix, or of a path with it. -/
def listKeys (keyPrefix : Str) : List Str → ServerProg H (List Str)
  | [] => pure []
  | p :: ps => do
    let key ← listedKey p
    let keys ← listKeys keyPrefix ps
    pure (if hasPrefix key keyPrefix ∨ hasPrefix p keyPrefix then key :: keys else keys)

def patternPrefix (pat : Str) : Str := if pat = str "*" then [] else trimSuffix pat (str "*")

def matchingKeys (pat : Str) : ServerProg H (List Str) := do
  let paths ← frontierPaths
  let keys ← listKeys (patternPrefix pat) paths
  pure (sortStrings keys.dedup)

def keys : List Str → ServerProg H Str
  | pat :: _ => do
    let keys ← matchingKeys pat
    pure (arrayReply keys)
  | [] => pure wrongArgs

/-- The pattern and the count among the arguments of `SCAN`. The cursor is not used. -/
def scanOptions [Unicode] : List Str → Str × ℕ → Str × ℕ
  | a :: b :: rest, (pat, count) =>
    if toUpper a = str "MATCH" then scanOptions rest (b, count)
    else if toUpper a = str "COUNT" then
      match parseInt b with
      | some c => scanOptions rest (pat, if 0 < c then c.toInt.toNat else count)
      | none => scanOptions rest (pat, count)
    else scanOptions (b :: rest) (pat, count)
  | _, options => options

def scan [Unicode] (rest : List Str) : ServerProg H Str := do
  let (pat, count) := scanOptions rest (str "*", 100)
  let keys ← matchingKeys pat
  pure (arrayHeader 2 ++ integerReply 0 ++ arrayReply (keys.take count))

/-- `time.Duration.String`, of a whole number of seconds -/
def durationString (seconds : ℕ) : Str :=
  let h := seconds / 3600
  let m := seconds / 60 % 60
  (if h ≠ 0 then decimal h ++ str "h" else []) ++
    (if h ≠ 0 ∨ m ≠ 0 then decimal m ++ str "m" else []) ++ decimal (seconds % 60) ++ str "s"

/-- `d.Round(time.Second)`, in seconds -/
def roundToSeconds (d : ℕ) : ℕ := (d + 5 * 10 ^ 8) / 10 ^ 9

def info : ServerProg H Str := do
  let uptime ← ServerOp.ask .uptime
  let paths ← frontierPaths
  pure (formatBulkString (str "wavicle_version:1.0\r\nuptime:" ++
    durationString (roundToSeconds uptime) ++ str "\r\nkeys:" ++ decimal paths.length ++
    str "\r\nshards:32\r\n"))

def putTombstones : List Str → ServerProg H Unit
  | [] => pure ()
  | p :: ps => do
    let _ ← putTombstone p
    putTombstones ps

def flushdb : ServerProg H Str := do
  let paths ← frontierPaths
  putTombstones paths
  ServerOp.ask .clearTypes
  pure okReply

/-! ### Deadlines -/

def pexpire : List Str → ServerProg H Str
  | key :: ms :: _ =>
    match parseInt ms with
    | none => pure invalidExpire
    | some ms =>
      if ms ≤ 0 then pure invalidExpire
      else do
        match ← liveAtom key with
        | none => pure (integerReply 0)
        | some cur => do
          let now ← ServerOp.ask .now
          let _ ← appendAtom cur.expr key [] (deadline now ms millisecond)
          pure (integerReply 1)
  | _ => pure wrongArgs

/-- `time.Until(t)`, which saturates -/
def timeUntil (now t : Time) : ℤ := max (-2 ^ 63) (min (t - now) (2 ^ 63 - 1))

def pttl : List Str → ServerProg H Str
  | key :: _ => do
    match ← liveAtom key with
    | none => pure (integerReply (-2))
    | some cur =>
      if cur.expiresAt = zeroTime then pure (integerReply (-1))
      else do
        let now ← ServerOp.ask .now
        let ms := (timeUntil now cur.expiresAt).tdiv (10 ^ 6)
        pure (integerReply (if ms ≤ 0 then -2 else ms))
  | [] => pure wrongArgs

def persist : List Str → ServerProg H Str
  | key :: _ => do
    match ← liveAtom key with
    | none => pure (integerReply 0)
    | some cur =>
      if cur.expiresAt = zeroTime then pure (integerReply 0)
      else do
        let _ ← appendAtom cur.expr key [] zeroTime
        pure (integerReply 1)
  | [] => pure wrongArgs

end Wavicle.Resp3
