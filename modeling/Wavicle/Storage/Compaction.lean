import Wavicle.Storage.CrystalSpec

/-! # Compaction of the log

`storage/wal.go` and `Compact` of `storage/crystal.go`, with each access to the log, the frontier or the cache as
one step; the steps of any number of calls and of a compaction come in any order, and a restart at any time.
What `Compact` has collected can be out of date when it rewrites the log.

* `LogCodec`: how atoms are written to lines and read back.
* `FileError`: the two ways in which `WAL.Append` fails after it has begun to write. The bytes of the record that
  are in the file by then stay there.
* `LoggedCrystal.step`: one access to the log, the frontier or the cache.
* `LoggedCrystal.Durable`: every acknowledged write is found again.
* `LoggedCrystal.Careful`: which steps must not be taken for that. -/

namespace Wavicle.Storage

open Lib Wavicle.Core

/-- How an atom is written as a line of the log, and read back. -/
structure LogCodec (ι H : Type) where
  /-- `json.Marshal(atom)` -/
  marshal : CausalAtom ι H → Except Str Str
  /-- `json.Unmarshal(data, &atom)`, and whether the hash is not zero -/
  unmarshal : Str → Option (CausalAtom ι H)

/-- The limit on the length of a line, and the size of the buffer for reading one. -/
def maxLineSize : ℕ := 2 ^ 20

namespace LogCodec

variable {ι H : Type} (codec : LogCodec ι H)

/-- The line of an atom, unless `WAL.Append` refuses it. -/
def line (atom : CausalAtom ι H) : Except Str Str :=
  match codec.marshal atom with
  | .error msg => .error msg
  | .ok data =>
    if data.length > maxLineSize then .error (str "atom too large: " ++ decimal data.length ++
      str " bytes > " ++ decimal maxLineSize ++ str " limit")
    else .ok data

/-- `ReadAll`: the scanner stops at a line that does not fit into its buffer together with its end. -/
def readAll (lines : List Str) : List (CausalAtom ι H) :=
  (lines.takeWhile fun data => data.length < maxLineSize).filterMap codec.unmarshal

/-- The file that `Rewrite` makes of some atoms, unless one of them cannot be marshalled. -/
def rewrite (atoms : List (CausalAtom ι H)) : Except Str (List Str) := atoms.mapM codec.marshal

/-- An atom is read back from its line: nothing of it is lost in the encoding, and the line fits into
the buffer of the scanner. -/
def Readable (atom : CausalAtom ι H) : Prop :=
  ∀ data, codec.marshal atom = .ok data →
    codec.unmarshal data = some atom ∧ data.length ≠ maxLineSize

end LogCodec

/-! ### Calls and their steps -/

/-- How far a call of `AppendAtom` has come. -/
inductive Stage where
  | begun
  | logged
  | indexed
  | stored
  | returned
  | failed
  | crashed
  deriving DecidableEq

namespace Stage

def ended : Stage → Bool
  | .returned | .failed | .crashed => true
  | _ => false

/-- The record of the call is in the log. -/
def written : Stage → Bool
  | .logged | .indexed | .stored | .returned => true
  | _ => false

/-- The frontier has had the hash of the call. -/
def shown : Stage → Bool
  | .indexed | .stored | .returned => true
  | _ => false

end Stage

/-- A call of `AppendAtom`: its atom, and the atoms of the calls that were over when it began. -/
structure AppendCall (ι H : Type) where
  atom : CausalAtom ι H
  stage : Stage
  settled : List (CausalAtom ι H)

def AppendCall.stopped {ι H : Type} (call : AppendCall ι H) : AppendCall ι H :=
  if call.stage.ended then call else { call with stage := .crashed }

/-- How far a compaction has come. -/
inductive Compaction (ι H : Type) where
  | idle
  | collected (alive : List (CausalAtom ι H))
  | rewritten

/-- A `CausalCrystal` with its log, the calls of `AppendAtom` so far, and the compaction. -/
structure LoggedCrystal (ι H : Type) where
  /-- the lines of the log that have an end -/
  lines : List Str
  crystal : CausalCrystal ι H
  calls : List (AppendCall ι H)
  compaction : Compaction ι H
  /-- what stands after the last end of a line -/
  torn : Str

/-- How the file fails under `WAL.Append`. -/
inductive FileError where
  /-- `Write` fails or is short, after the first `n` bytes of the record -/
  | write (n : ℕ)
  /-- `Sync` fails, after the whole record is in the file -/
  | sync

/-- The actions of the calls of `AppendAtom`, of `Compact` and of the process. -/
inductive LogAction (ι H : Type) where
  | begin (expr : Expr ι H) (path : Str) (causalPast : List H) (expiresAt now : Time) (draw : Draw H)
  /-- `c.wal.Append(atom)`; the file may fail -/
  | log (i : ℕ) (fileError : Option FileError)
  /-- `c.frontier.Set(path, atom.Hash)` -/
  | index (i : ℕ)
  | store (i : ℕ)
  | ret (i : ℕ) (range : List H)
  /-- the first step of `Compact` -/
  | collect
  /-- `c.wal.Rewrite(alive)`; the files may fail before the new log is in the place of the old one -/
  | rewrite (fileError : Option Str)
  /-- the last step of `Compact` -/
  | evict
  /-- the process ends, and `Recover` reads the log -/
  | restart

namespace LoggedCrystal

variable {ι H : Type} [DecidableEq H] [Hashing H]

def init : LoggedCrystal ι H := ⟨[], ⟨∅, ∅, 0, 0⟩, [], .idle, []⟩

def advanced (calls : List (AppendCall ι H)) (i : ℕ) (stage : Stage) : List (AppendCall ι H) :=
  calls.modify i fun call => { call with stage }

/-- What `Compact` collects: the current atoms, in the order of their clocks. -/
def alive (c : CausalCrystal ι H) : List (CausalAtom ι H) :=
  (c.frontier.keys.filterMap c.getCurrent).insertionSort fun a b => a.logicalClock ≤ b.logicalClock

def settled (x : LoggedCrystal ι H) : List (CausalAtom ι H) :=
  (x.calls.filter fun call => call.stage.ended).map (·.atom)

/-- The lines as the scanner finds them: it takes what stands after the last end of a line for one more. -/
def scanned (x : LoggedCrystal ι H) : List Str := if x.torn = [] then x.lines else x.lines ++ [x.torn]

/-- The log after a record has been written to its end: what was torn stands at the head of its line. -/
def logged (x : LoggedCrystal ι H) (data : Str) : LoggedCrystal ι H :=
  { x with lines := x.lines ++ [x.torn ++ data], torn := [] }

variable (codec : LogCodec ι H)

/-- What `Recover` makes of the log. -/
def recovered (x : LoggedCrystal ι H) : CausalCrystal ι H := .recover (codec.readAll x.scanned)

/-- `WAL.Append` and what follows of it for the call `i`: an error of the file does not take back what has
been written. -/
def append (x : LoggedCrystal ι H) (i : ℕ) (atom : CausalAtom ι H) (fileError : Option FileError) :
    LoggedCrystal ι H :=
  match codec.line atom with
  | .error _ => { x with calls := advanced x.calls i .failed }
  | .ok data =>
    match fileError with
    | none => { x.logged data with calls := advanced x.calls i .logged }
    | some (.write n) => { x with torn := x.torn ++ data.take n, calls := advanced x.calls i .failed }
    | some .sync => { x.logged data with calls := advanced x.calls i .failed }

/-- One step; one that is not the next of its call or of the compaction does nothing. -/
def step (x : LoggedCrystal ι H) : LogAction ι H → LoggedCrystal ι H
  | .begin expr path causalPast expiresAt now draw =>
    { x with
      crystal := { x.crystal with clock := x.crystal.clock + 1 }
      calls := x.calls ++
        [⟨x.crystal.mint now draw expr path causalPast expiresAt, .begun, x.settled⟩] }
  | .log i fileError =>
    match x.calls[i]? with
    | some ⟨atom, .begun, _⟩ => x.append codec i atom fileError
    | _ => x
  | .index i =>
    match x.calls[i]? with
    | some ⟨atom, .logged, _⟩ => { x with
        crystal := { x.crystal with frontier := x.crystal.frontier.insert atom.path atom.hash }
        calls := advanced x.calls i .indexed }
    | _ => x
  | .store i =>
    match x.calls[i]? with
    | some ⟨atom, .indexed, _⟩ => { x with
        crystal := { x.crystal with
          atomCache := x.crystal.atomCache.insert atom.hash atom
          atomCount := x.crystal.atomCount + 1 }
        calls := advanced x.calls i .stored }
    | _ => x
  | .ret i range =>
    match x.calls[i]? with
    | some ⟨_, .stored, _⟩ => { x with
        crystal := if x.crystal.atomCount > maxAtomCacheEntries then x.crystal.evictIfNeeded range
          else x.crystal
        calls := advanced x.calls i .returned }
    | _ => x
  | .collect =>
    match x.compaction with
    | .idle => { x with compaction := .collected (alive x.crystal) }
    | _ => x
  | .rewrite fileError =>
    match x.compaction with
    | .collected atoms =>
      match codec.rewrite atoms, fileError with
      | .ok lines, none => { x with lines, torn := [], compaction := .rewritten }
      | _, _ => { x with compaction := .idle }
    | _ => x
  | .evict =>
    match x.compaction with
    | .rewritten => { x with crystal := x.crystal.compact, compaction := .idle }
    | _ => x
  | .restart =>
    { x with
      crystal := x.recovered codec
      calls := x.calls.map AppendCall.stopped
      compaction := .idle }

def run (x : LoggedCrystal ι H) (actions : List (LogAction ι H)) : LoggedCrystal ι H :=
  actions.foldl (step codec) x

/-- **Every acknowledged write is kept**: a restart gives the path of a call that has returned its atom
or that of another call which was not over when this one began. -/
def Durable (x : LoggedCrystal ι H) : Prop :=
  ∀ call ∈ x.calls, call.stage = .returned → ∃ later ∈ x.calls,
    (x.recovered codec).getCurrent call.atom.path = some later.atom ∧
      later.atom ∉ call.settled

/-- An error of the file, if there is one, comes before the first byte of the record is in it. -/
def SparesLog (fileError : Option FileError) : Prop := ∀ e, fileError = some e → e = .write 0

/-- **What must not happen.** An atom is written to the log between the collection and the rewriting; an append
fails and leaves something of its record in the log; the current atoms are collected while a call is between the
log and the cache; two atoms have one hash; and an atom that the log accepts cannot be read from it. -/
def Careful (x : LoggedCrystal ι H) : LogAction ι H → Prop
  | .begin expr path causalPast expiresAt now draw =>
    let atom := x.crystal.mint now draw expr path causalPast expiresAt
    (∀ call ∈ x.calls, call.atom.hash ≠ atom.hash) ∧ codec.Readable atom
  | .log _ fileError => SparesLog fileError ∧ ∀ atoms, x.compaction ≠ .collected atoms
  | .collect => ∀ call ∈ x.calls, call.stage ≠ .logged ∧ call.stage ≠ .indexed
  | _ => True

def CarefulRun : LoggedCrystal ι H → List (LogAction ι H) → Prop
  | _, [] => True
  | x, action :: actions => Careful codec x action ∧ CarefulRun (x.step codec action) actions

end LoggedCrystal

/-! ### Reading the log -/

section

variable {ι H : Type} [DecidableEq H]

def LogCodec.Written (codec : LogCodec ι H) : List (CausalAtom ι H) → List Str → Prop :=
  List.Forall₂ fun atom data => codec.line atom = .ok data

variable {codec : LogCodec ι H} {atoms : List (CausalAtom ι H)}

section

omit [DecidableEq H]

theorem LogCodec.line_eq_ok {atom : CausalAtom ι H} {data : Str} :
    codec.line atom = .ok data ↔ codec.marshal atom = .ok data ∧ data.length ≤ maxLineSize := by
  unfold LogCodec.line
  split
  · rename_i msg hmsg
    rw [hmsg]
    simp
  · rename_i data' hdata
    rw [hdata]
    split_ifs with hlong
    · simp only [Except.ok.injEq, false_iff]
      rintro ⟨rfl, hle⟩
      omega
    · simp only [Except.ok.injEq, iff_self_and]
      rintro rfl
      omega

theorem LogCodec.Written.readAll {lines : List Str} (h : codec.Written atoms lines)
    (hread : ∀ a ∈ atoms, codec.Readable a) : codec.readAll lines = atoms := by
  induction h with
  | nil => rfl
  | @cons atom data atoms lines hline _ ih =>
    obtain ⟨hdata, hle⟩ := LogCodec.line_eq_ok.1 hline
    obtain ⟨hback, hne⟩ := hread atom (.head _) data hdata
    have hlt : data.length < maxLineSize := lt_of_le_of_ne hle hne
    have htail := ih (List.forall_mem_cons.1 hread).2
    unfold LogCodec.readAll at htail ⊢
    rw [List.takeWhile_cons_of_pos (by simpa using hlt), List.filterMap_cons, hback]
    exact congrArg (atom :: ·) htail

theorem LogCodec.Written.line_of_mem {lines : List Str} (h : codec.Written atoms lines)
    {a : CausalAtom ι H} (ha : a ∈ atoms) : ∃ data, codec.line a = .ok data := by
  induction h with
  | nil => cases ha
  | @cons atom data _ _ hline _ ih =>
    rcases List.mem_cons.1 ha with rfl | ha
    · exact ⟨data, hline⟩
    · exact ih ha

theorem LogCodec.written_of_rewrite : ∀ {atoms : List (CausalAtom ι H)}
    {lines : List Str}, codec.rewrite atoms = .ok lines →
      (∀ a ∈ atoms, ∃ data, codec.line a = .ok data) → codec.Written atoms lines
  | [], lines, h, _ => by
    obtain rfl := Except.ok.inj (h : Except.ok [] = Except.ok lines)
    exact .nil
  | atom :: atoms, lines, h, hline => by
    obtain ⟨data, hdata⟩ := hline atom (.head _)
    have hmarshal := (LogCodec.line_eq_ok.1 hdata).1
    unfold LogCodec.rewrite at h
    rw [List.mapM_cons, hmarshal] at h
    cases hrest : codec.rewrite atoms with
    | error msg =>
      unfold LogCodec.rewrite at hrest
      rw [hrest] at h
      cases h
    | ok rest =>
      have htail := written_of_rewrite hrest (List.forall_mem_cons.1 hline).2
      unfold LogCodec.rewrite at hrest
      rw [hrest] at h
      obtain rfl := Except.ok.inj h
      exact .cons hdata htail

end

theorem CausalCrystal.getCurrent_recover (hnd : (atoms.map (·.hash)).Nodup) (p : Str) :
    (recover atoms).getCurrent p = atoms.reverse.find? fun a => a.path = p := by
  induction atoms using List.reverseRecOn with
  | nil => rfl
  | append_singleton atoms atom ih =>
    have hnd' : ((atom :: atoms.reverse).map (·.hash)).Nodup := by
      rw [← List.reverse_concat, List.map_reverse]
      exact List.nodup_reverse.2 hnd
    have hrec : recover (atoms ++ [atom]) = { recover atoms with
        frontier := (recover atoms).frontier.insert atom.path atom.hash
        atomCache := (recover atoms).atomCache.insert atom.hash atom
        atomCount := (recover atoms).atomCount + 1
        clock := max (recover atoms).clock atom.logicalClock } := by
      rw [recover, List.foldl_append]
      rfl
    have hbefore := ih (by simpa using (List.nodup_append.1 (by simpa using hnd)).1)
    rw [hrec, (exact_recover atoms).getCurrent_insert hnd' rfl rfl, List.reverse_concat,
      List.find?_cons, hbefore]
    by_cases hp : p = atom.path
    · simp [hp]
    · simp [hp, Ne.symm hp]

theorem CausalCrystal.getCurrent_recover_of_unique (hnd : (atoms.map (·.hash)).Nodup)
    {a : CausalAtom ι H} (ha : a ∈ atoms) (hunique : ∀ b ∈ atoms, b.path = a.path → b = a) :
    (recover atoms).getCurrent a.path = some a := by
  rw [getCurrent_recover hnd]
  cases hfind : atoms.reverse.find? fun b => b.path = a.path with
  | none =>
    have := List.find?_eq_none.1 hfind a (List.mem_reverse.2 ha)
    simp at this
  | some b =>
    have hpath := List.find?_some hfind
    rw [hunique b (List.mem_reverse.1 (List.mem_of_find?_eq_some hfind)) (by simpa using hpath)]

end

end Wavicle.Storage
