import Wavicle.Core.Intern
import Wavicle.Lib.GoMap

/-! # Objects

Maps and slices as objects in memory. A `Ref` is the number of the object and, for a slice, the place where it
begins and how many elements it may grow to. A change of an object is seen through every reference to it, so
it is made to every value at once (`Value.change`). -/

namespace Wavicle.Core

open Lib

/-- An allocation, with the part of its array that a slice shows. -/
structure Ref where
  id : ℕ
  offset : ℕ
  cap : ℕ
  deriving DecidableEq, Inhabited

def Ref.nil : Ref := ⟨0, 0, 0⟩

def Ref.map (id : ℕ) : Ref := ⟨id, 0, 0⟩

/-- `a[lo:]`, as a reference; `a[:hi]` is `a` itself -/
def Ref.from (r : Ref) (lo : ℕ) : Ref := { r with offset := r.offset + lo, cap := r.cap - lo }

/-- A write through a reference, which all values that share it see. -/
inductive Change where
  | delete (id : ℕ) (key : Str)
  /-- the element `index` of an array is set -/
  | assign (id index : ℕ) (v : Value Ref)

def Change.onFields (c : Change) (r : Ref) (fields : List (Str × Value Ref)) :
    List (Str × Value Ref) :=
  match c with
  | .delete id key => if r.id = id then fields.filter (·.1 ≠ key) else fields
  | .assign _ _ _ => fields

def Change.onElems (c : Change) (r : Ref) (elems : List (Value Ref)) : List (Value Ref) :=
  match c with
  | .delete _ _ => elems
  | .assign id index v =>
    if r.id = id ∧ r.offset ≤ index then elems.set (index - r.offset) v else elems

def Value.change (c : Change) : Value Ref → Value Ref
  | .vArray r elems => .vArray r (c.onElems r (changeElems c elems))
  | .vRecord r fields => .vRecord r (c.onFields r (changeFields c fields))
  | .vNull => .vNull
  | .vBool b => .vBool b
  | .vInt n => .vInt n
  | .vFloat bits => .vFloat bits
  | .vString s => .vString s
  | .vBytes b => .vBytes b
where
  changeElems (c : Change) : List (Value Ref) → List (Value Ref)
    | [] => []
    | v :: vs => v.change c :: changeElems c vs
  changeFields (c : Change) : List (Str × Value Ref) → List (Str × Value Ref)
    | [] => []
    | (k, v) :: fs => (k, v.change c) :: changeFields c fs

variable {H : Type}

def Expr.change (c : Change) : Expr Ref H → Expr Ref H
  | .eConst v => .eConst (v.change c)
  | .eFieldAccess field source => .eFieldAccess field (source.change c)
  | .eApply func arg => .eApply (func.change c) (arg.change c)
  | .eEmbed modelVersion vector => .eEmbed modelVersion vector
  | .eCompose atoms => .eCompose atoms
  | .eResonate queries => .eResonate queries

def CausalAtom.change (c : Change) (a : CausalAtom Ref H) : CausalAtom Ref H :=
  { a with expr := a.expr.change c }

/-- An entry of the intern table after a change. It stays where its hash has put it, but what it is
compared by are the bytes that it has now. -/
def InternEntry.change (c : Change) (e : InternEntry Ref H) : InternEntry Ref H :=
  { e with
    expr := e.expr.change c
    key := match e.expr.change c with
      | .eConst v => .const v.serialize
      | _ => e.key }

def InternTable.change (c : Change) (t : InternTable Ref H) : InternTable Ref H :=
  t.map (InternEntry.change c)

end Wavicle.Core
