import Wavicle.Storage.WriteThrough

/-! # Applying database changes

`runCDCApplier` of `main.go`: a change is dropped if the current atom is younger than its commit time, or prints
like its value; otherwise it is appended, with the deadline of the current atom. The store is the sharded cache
or a `WriteThroughStore` around it: `Replica` is what both have in common. Telemetry is left out. -/

namespace Wavicle.Replication

open Lib Wavicle.Core Storage

/-- What a change does to its row. -/
inductive Action where
  | insert
  | update
  | delete
  deriving DecidableEq

/-- A decoded column: `nil`, a `string` or an `int64`. -/
inductive Cell where
  | null
  | text (s : Str)
  | int (n : Int64)

def Cell.sprint : Cell → Str
  | .null => str "<nil>"
  | .text s => s
  | .int n => decimalInt n.toInt

/-- `ChangeEvent`, as far as the applier reads it. -/
structure ChangeEvent where
  action : Action
  newValues : GoMap Str Cell
  affectedPaths : List Str
  commitTime : Time

section

variable {ι H : Type} [DecidableEq H] [Hashing H] [Printing]

/-- `local.AppendAtom(&core.EConst{Value: v}, path, nil, expiresAt)`, whose result is not looked at. -/
def appendLocal (v : Value ι) (path : Str) (expiresAt : Time) : StoreProg ι H Unit := do
  let _ ← Prog.ask (⟨.inner, .appendAtom (.eConst v) path [] expiresAt⟩ : StoreCall ι H)
  pure ()

def applyPath (evt : ChangeEvent) (path : Str) : StoreProg ι H Unit :=
  if evt.action = .delete then appendLocal .vNull path zeroTime
  else
    match (afterLast 58 path).bind evt.newValues.lookup with
    | none => pure ()
    | some val => do
      match ← Prog.ask (⟨.given, .getCurrent path⟩ : StoreCall ι H) with
      | none => appendLocal (.vString val.sprint) path zeroTime
      | some current =>
        if evt.commitTime < current.physicalTime then pure ()
        else if extractAtomValue current = some val.sprint then pure ()
        else appendLocal (.vString val.sprint) path current.expiresAt

def applyPaths (evt : ChangeEvent) : List Str → StoreProg ι H Unit
  | [] => pure ()
  | path :: paths => do
    applyPath evt path
    applyPaths evt paths

/-- `runCDCApplier`, on the events of its channel -/
def runCDCApplier : List ChangeEvent → StoreProg ι H Unit
  | [] => pure ()
  | evt :: events => do
    applyPaths evt evt.affectedPaths
    runCDCApplier events

end

example : afterLast 58 (str "users:1:name") = some (str "name") := by decide

end Wavicle.Replication
