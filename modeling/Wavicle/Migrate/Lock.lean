import Wavicle.Core.Types
import Wavicle.Lib.Strconv

/-! # The report lock of `wavicle-migrate`

`acquireLock` of `cmd/wavicle-migrate/main.go`, the beat and the release, as the file operations of any number
of processes on one directory. A record is put in place over the temporary file `path.tmp`, which all processes
share; a process that has opened a file writes to its inode wherever the name leads by then. -/

namespace Wavicle.Migrate

open Lib Wavicle.Core Function

def second : Time := 10 ^ 9

def staleLockAfter : Time := 5 * 60 * second

/-- A reading of `time.Now`: from 1970 on, and before the year 10000, which has no text in RFC 3339. -/
structure Instant where
  time : Time
  nonneg : 0 ≤ time
  before : time < 253402300800 * second
  deriving DecidableEq

/-- `pidLock`, the record of the process that owns a report path. -/
structure PidLock where
  pid : ℤ
  startedAt : Str
  heartbeat : Str
  deriving DecidableEq

/-- How a record and its times are written into a file. -/
structure LockFormat where
  /-- `json.Marshal` of a record, which has no error. -/
  marshal : PidLock → Str
  /-- `json.Unmarshal` into a record. -/
  unmarshal : Str → Option PidLock
  /-- `Format(time.RFC3339)` of a time in UTC. -/
  format : Time → Str
  /-- `time.Parse(time.RFC3339, ·)`. -/
  parse : Str → Option Time

def LockFormat.record (f : LockFormat) (pid : ℤ) (started heartbeat : Instant) : PidLock :=
  ⟨pid, f.format started.time, f.format heartbeat.time⟩

/-- What is asked of the texts: a time has its seconds in its text, and a record is read from its whole text
only. -/
structure LockFormat.Lawful (f : LockFormat) : Prop where
  parse_format : ∀ t : Instant, f.parse (f.format t.time) = some (t.time - t.time % second)
  unmarshal_marshal : ∀ pid started heartbeat,
    f.unmarshal (f.marshal (f.record pid started heartbeat)) = some (f.record pid started heartbeat)
  unmarshal_take : ∀ pid started heartbeat n, n < (f.marshal (f.record pid started heartbeat)).length →
    f.unmarshal ((f.marshal (f.record pid started heartbeat)).take n) = none
  unmarshal_nil : f.unmarshal [] = none

/-- `pidAlive`, where `signal` says if there is such a process that takes a signal. -/
def pidAlive (signal : Bool) (pid : ℤ) : Bool := if pid ≤ 0 then false else signal

/-- The heartbeat of a record that could be read is fresh. `now.Sub` is cut off at the bounds of a duration,
which does not matter for the comparison. -/
def LockFormat.fresh (f : LockFormat) (now : Instant) (prev : PidLock) : Bool :=
  match f.parse prev.heartbeat with
  | some hb => decide (now.time - hb < staleLockAfter)
  | none => true

def refusal (path : Str) (prev : PidLock) : Str :=
  str "another shadow comparer (pid " ++ decimalInt prev.pid ++ str ", started " ++ prev.startedAt ++
    str ", heartbeat " ++ prev.heartbeat ++ str ") owns report lock " ++ path ++
    str ". Two writers corrupt one report " ++ [0xE2, 0x80, 0x94] ++
    str " kill it or use a different -report path"

/-- The error of a takeover whose `writeLock` fails. -/
def cannotWrite (path err : Str) : Str := str "cannot write lock " ++ path ++ str ": " ++ err

/-- What a process that holds the lock knows: the inode that it has put at `path`, when it started, and the
heartbeat in the record that it wrote there last. -/
structure Held where
  inode : ℕ
  started : Instant
  beatAt : Instant
  deriving DecidableEq

/-- What a `writeLock` is for. -/
inductive Errand where
  | takeover (judged : Str)
  | beat (held : Held)
  deriving DecidableEq

/-- How far a process has come. -/
inductive Phase where
  | idle
  /-- `acquireLock` has read the clock. -/
  | starting (now : Instant)
  | created (now : Instant) (inode : ℕ)
  | reading (now : Instant) (tries : ℕ)
  | judging (now : Instant) (judged : Str) (prev : PidLock)
  /-- `writeLock` of the record with these times, before it opens `path.tmp`. -/
  | opening (started heartbeat : Instant) (errand : Errand)
  | putting (started heartbeat : Instant) (errand : Errand) (inode : ℕ)
  /-- It has written `path.tmp`, and not yet renamed it. -/
  | wrote (started heartbeat : Instant) (errand : Errand)
  /-- `acquireLock` has returned without an error. -/
  | holding (held : Held)
  /-- `acquireLock` has returned an error. -/
  | failed (msg : Str)
  | gone
  deriving DecidableEq

def Errand.held : Errand → Option Held
  | .takeover _ => none
  | .beat h => some h

/-- The lock of a process whose `acquireLock` has returned without an error. -/
def Phase.held : Phase → Option Held
  | .holding h => some h
  | .opening _ _ errand | .putting _ _ errand _ | .wrote _ _ errand => errand.held
  | _ => none

/-- The inode that a process has put at `path`. -/
def Phase.inode : Phase → Option ℕ
  | .created _ a => some a
  | p => p.held.map (·.inode)

/-- The directory with the inodes of the lock and of `path.tmp`, the clock, and the processes. -/
structure World where
  clock : Instant
  lock : Option ℕ
  tmp : Option ℕ
  files : ℕ → Str
  next : ℕ
  phase : ℕ → Phase

/-- What can happen next: time passes, or a process takes one step. -/
inductive Action where
  | clock (t : Instant)
  | start (i : ℕ)
  /-- The exclusive creation of `path`; `fault` if it fails though there is no such file. -/
  | create (i : ℕ) (fault : Bool)
  /-- The write to the file that has been created, of which only so many bytes may go through. -/
  | write (i : ℕ) (short : Option ℕ)
  | read (i : ℕ) (fault : Bool)
  /-- The judgement; `signal` if there is a process that has the pid of the record. -/
  | judge (i : ℕ) (signal : Bool)
  | openTmp (i : ℕ) (fault : Option Str)
  /-- The write to `path.tmp`, of which only so many bytes may go through, with an error. -/
  | put (i : ℕ) (short : Option (ℕ × Str))
  | rename (i : ℕ) (fault : Option Str)
  | beat (i : ℕ)
  | release (i : ℕ) (fault : Bool)
  | die (i : ℕ)

def overwritten (old data : Str) : Str := data ++ old.drop data.length

namespace World

variable (f : LockFormat) (path : Str) (pid : ℕ → ℤ)

def move (x : World) (i : ℕ) (p : Phase) : World := { x with phase := update x.phase i p }

/-- The bytes at `path`. -/
def content (x : World) : Option Str := x.lock.map x.files

/-- The end of a `writeLock` that fails: a takeover returns the error, a beat ignores it. -/
def abandoned : Errand → Str → Phase
  | .takeover _, err => .failed (cannotWrite path err)
  | .beat h, _ => .holding h

/-- A step of the system; a step that its process cannot take does nothing. -/
def step (x : World) : Action → World
  | .clock t => { x with clock := t }
  | .start i =>
    match x.phase i with
    | .idle => x.move i (.starting x.clock)
    | _ => x
  | .create i fault =>
    match x.phase i with
    | .starting now =>
      if x.lock = none ∧ fault = false then
        { x with
          lock := some x.next
          files := update x.files x.next []
          next := x.next + 1
          phase := update x.phase i (.created now x.next) }
      else x.move i (.reading now 0)
    | _ => x
  | .write i short =>
    match x.phase i with
    | .created now a =>
      -- the error of the write is ignored
      let own := f.marshal (f.record (pid i) now now)
      { x with
        files := update x.files a (overwritten (x.files a) (own.take (short.getD own.length)))
        phase := update x.phase i (.holding ⟨a, now, now⟩) }
    | _ => x
  | .read i fault =>
    match x.phase i with
    | .reading now tries =>
      match if fault then none else x.content.bind fun b => (f.unmarshal b).map (b, ·) with
      | some (b, prev) => x.move i (.judging now b prev)
      | none =>
        if tries + 1 < 6 then x.move i (.reading now (tries + 1))
        else x.move i (.failed (refusal path ⟨0, [], []⟩))
    | _ => x
  | .judge i signal =>
    match x.phase i with
    | .judging now judged prev =>
      if f.fresh now prev || pidAlive signal prev.pid then x.move i (.failed (refusal path prev))
      else x.move i (.opening now now (.takeover judged))
    | _ => x
  | .openTmp i fault =>
    match x.phase i with
    | .opening started heartbeat errand =>
      match fault, x.tmp with
      | some err, _ => x.move i (abandoned path errand err)
      | none, some b =>
        { x with
          files := update x.files b []
          phase := update x.phase i (.putting started heartbeat errand b) }
      | none, none =>
        { x with
          tmp := some x.next
          files := update x.files x.next []
          next := x.next + 1
          phase := update x.phase i (.putting started heartbeat errand x.next) }
    | _ => x
  | .put i short =>
    match x.phase i with
    | .putting started heartbeat errand b =>
      let own := f.marshal (f.record (pid i) started heartbeat)
      match short with
      | some (n, err) =>
        { x with
          files := update x.files b (overwritten (x.files b) (own.take n))
          phase := update x.phase i (abandoned path errand err) }
      | none =>
        { x with
          files := update x.files b (overwritten (x.files b) own)
          phase := update x.phase i (.wrote started heartbeat errand) }
    | _ => x
  | .rename i fault =>
    match x.phase i with
    | .wrote started heartbeat errand =>
      match fault, x.tmp with
      | some err, _ => x.move i (abandoned path errand err)
      | none, some b =>
        { x with
          lock := some b
          tmp := none
          phase := update x.phase i (.holding ⟨b, started, heartbeat⟩) }
      | none, none =>
        x.move i (abandoned path errand (str "rename " ++ path ++ str ".tmp " ++ path ++
          str ": no such file or directory"))
    | _ => x
  | .beat i =>
    match x.phase i with
    | .holding h => x.move i (.opening h.started x.clock (.beat h))
    | _ => x
  | .release i fault =>
    match x.phase i with
    | .holding _ =>
      { x with
        lock := if fault then x.lock else none
        phase := update x.phase i .gone }
    | _ => x
  | .die i => x.move i .gone

/-- The directory as it is found, with what processes that have died may have left, at the time `now`. -/
def found (now : Instant) (lock tmp : Option Str) : World where
  clock := now
  lock := lock.map fun _ => 0
  tmp := tmp.map fun _ => 1
  files := update (fun _ => tmp.getD []) 0 (lock.getD [])
  next := 2
  phase := fun _ => .idle

/-- The last heartbeat that a process has written is within the bound. -/
def refreshed (x : World) (h : Held) : Bool :=
  decide (x.clock.time - (h.beatAt.time - h.beatAt.time % second) < staleLockAfter)

end World

/-- A system, and the processes that hold the lock and have refreshed their heartbeat within the bound ever
since. -/
structure Watched where
  world : World
  keeps : ℕ → Bool

namespace Watched

variable (f : LockFormat) (path : Str) (pid : ℕ → ℤ)

def step (x : Watched) (action : Action) : Watched where
  world := x.world.step f path pid action
  keeps i := ((x.world.step f path pid action).phase i).held.any fun h =>
    (x.keeps i || (x.world.phase i).held.isNone) && (x.world.step f path pid action).refreshed h

def run (x : Watched) (actions : List Action) : Watched := actions.foldl (step f path pid) x

/-- No two processes hold the lock while both keep refreshing their heartbeat. -/
def Exclusive (x : Watched) : Prop := ∀ i j, x.keeps i = true → x.keeps j = true → i = j

end Watched

/-- The release of one process leaves the lock of another one, where that is the file at `path`. -/
def World.ReleasesOwn (x y : World) (action : Action) : Prop :=
  ∀ i fault, action = .release i fault → ∀ j ≠ i, ∀ h, (x.phase j).held = some h →
    x.lock = some h.inode → y.lock = some h.inode

/-- The condition on a step: the clock does not go back; a process does not write to the temporary file once
it has become the lock; it renames its own record only, in a takeover over the text that it has judged and in
a beat over its own file; and it releases its own file. -/
def World.Careful (f : LockFormat) (pid : ℕ → ℤ) (x : World) : Action → Prop
  | .clock t => x.clock.time ≤ t.time
  | .put i _ => ∀ started heartbeat errand b, x.phase i = .putting started heartbeat errand b →
      x.lock ≠ some b
  | .rename i fault => fault = none → ∀ started heartbeat errand b,
      x.phase i = .wrote started heartbeat errand → x.tmp = some b →
      x.files b = f.marshal (f.record (pid i) started heartbeat) ∧
      match errand with
      | .takeover judged => x.content = some judged
      | .beat h => x.lock = some h.inode
  | .release i _ => ∀ h, x.phase i = .holding h → x.lock = none ∨ x.lock = some h.inode
  | _ => True

def World.CarefulRun (f : LockFormat) (path : Str) (pid : ℕ → ℤ) : World → List Action → Prop
  | _, [] => True
  | x, action :: actions =>
    x.Careful f pid action ∧ CarefulRun f path pid (x.step f path pid action) actions

end Wavicle.Migrate
