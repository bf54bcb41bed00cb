import Wavicle.Lib.Binary64
import Wavicle.Lib.SortedMap

/-! # Values, expressions and atoms

The data types of `core/types.go`. SHA3-256 and xxHash are parameters, and nothing is assumed of them here.
Go maps and slices are references: a `vArray` or `vRecord` carries the identity `ref : ι` of the object next
to its contents, and where objects are never changed in place `ι` is `Unit`. The entries of a record are in
key order, as the source serializes them. -/

namespace Wavicle.Core

open Lib

/-- What the repository takes from its hash modules. -/
class Hashing (H : Type) where
  /-- `sha3.Sum256` -/
  sha3 : Str → H
  /-- the bytes `h[:]` of a digest -/
  bytes : H → Str
  /-- `xxhash.Sum64` -/
  xxhash : Str → UInt64

/-! ### Values -/

/-- The universal sum type for all atom values; a float is given by its bits. -/
inductive Value (ι : Type) where
  | vNull
  | vBool (b : Bool)
  | vInt (n : Int64)
  | vFloat (bits : UInt64)
  | vString (s : Str)
  | vBytes (b : Str)
  | vArray (ref : ι) (elems : List (Value ι))
  | vRecord (ref : ι) (fields : List (Str × Value ι))

variable {ι H : Type}

/-- `Value.Serialize`: neither tagged with the constructor nor delimited. -/
def Value.serialize : Value ι → Str
  | .vNull => [0]
  | .vBool b => if b then [1] else [2]
  | .vInt n => bigEndian 8 n.toUInt64.toNat
  | .vFloat bits => Binary64.sprintfF bits
  | .vString s => s
  | .vBytes b => b
  | .vArray _ elems => serializeElems elems
  | .vRecord _ fields => serializeFields fields
where
  serializeElems : List (Value ι) → Str
    | [] => []
    | v :: vs => v.serialize ++ serializeElems vs
  serializeFields : List (Str × Value ι) → Str
    | [] => []
    | (k, v) :: fs => k ++ v.serialize ++ serializeFields fs

/-- How `fmt` prints a `float64` under `%v`. -/
class Printing where
  sprintFloat : UInt64 → Str

def Value.sprint [Printing] : Value ι → Str
  | .vNull => str "\x7b\x7d"
  | .vBool b => if b then str "true" else str "false"
  | .vInt n => decimalInt n.toInt
  | .vFloat bits => Printing.sprintFloat bits
  | .vString s => s
  | .vBytes b => str "[" ++ (str " ").intercalate (b.map fun x => decimal x.toNat) ++ str "]"
  | .vArray _ elems => str "[" ++ (str " ").intercalate (sprintElems elems) ++ str "]"
  | .vRecord _ fields => str "map[" ++ (str " ").intercalate (sprintFields fields) ++ str "]"
where
  sprintElems : List (Value ι) → List Str
    | [] => []
    | v :: vs => v.sprint :: sprintElems vs
  sprintFields : List (Str × Value ι) → List Str
    | [] => []
    | (k, v) :: fs => (k ++ str ":" ++ v.sprint) :: sprintFields fs

def Value.beq [DecidableEq ι] : Value ι → Value ι → Bool
  | .vNull, .vNull => true
  | .vBool a, .vBool b => a = b
  | .vInt a, .vInt b => a = b
  | .vFloat a, .vFloat b => a = b
  | .vString a, .vString b => a = b
  | .vBytes a, .vBytes b => a = b
  | .vArray r vs, .vArray r' ws => r = r' && beqElems vs ws
  | .vRecord r fs, .vRecord r' gs => r = r' && beqFields fs gs
  | _, _ => false
where
  beqElems : List (Value ι) → List (Value ι) → Bool
    | [], [] => true
    | v :: vs, w :: ws => v.beq w && beqElems vs ws
    | _, _ => false
  beqFields : List (Str × Value ι) → List (Str × Value ι) → Bool
    | [], [] => true
    | (k, v) :: fs, (l, w) :: gs => k = l && v.beq w && beqFields fs gs
    | _, _ => false

mutual

theorem Value.beq_iff [DecidableEq ι] : ∀ a b : Value ι, a.beq b = true ↔ a = b
  | .vArray r vs, b => by cases b <;> simp [Value.beq, beqElems_iff vs]
  | .vRecord r fs, b => by cases b <;> simp [Value.beq, beqFields_iff fs]
  | .vNull, b => by cases b <;> simp [Value.beq]
  | .vBool a, b => by cases b <;> simp [Value.beq]
  | .vInt a, b => by cases b <;> simp [Value.beq]
  | .vFloat a, b => by cases b <;> simp [Value.beq]
  | .vString a, b => by cases b <;> simp [Value.beq]
  | .vBytes a, b => by cases b <;> simp [Value.beq]

theorem Value.beqElems_iff [DecidableEq ι] : ∀ vs ws : List (Value ι),
    Value.beq.beqElems vs ws = true ↔ vs = ws
  | [], ws => by cases ws <;> simp [Value.beq.beqElems]
  | v :: vs, ws => by cases ws <;> simp [Value.beq.beqElems, Value.beq_iff v, beqElems_iff vs]

theorem Value.beqFields_iff [DecidableEq ι] : ∀ fs gs : List (Str × Value ι),
    Value.beq.beqFields fs gs = true ↔ fs = gs
  | [], gs => by cases gs <;> simp [Value.beq.beqFields]
  | (k, v) :: fs, gs => by
    cases gs <;> simp [Value.beq.beqFields, Value.beq_iff v, beqFields_iff fs, Prod.ext_iff]

end

instance [DecidableEq ι] : DecidableEq (Value ι) := fun a b => decidable_of_iff _ (a.beq_iff b)

/-! ### Expressions -/

/-- A 256-dimensional embedding, by the bits of its `float32` components. -/
abbrev Embedding := Vector UInt32 256

/-- `CombinatorExpr`, the algebra of atom contents. -/
inductive Expr (ι H : Type) where
  | eConst (value : Value ι)
  | eFieldAccess (field : Str) (source : Expr ι H)
  | eEmbed (modelVersion : UInt16) (vector : Embedding)
  | eCompose (atoms : List H)
  | eApply (func arg : Expr ι H)
  | eResonate (queries : List Embedding)
  deriving DecidableEq

def Embedding.serialize (v : Embedding) : Str := v.toList.flatMap fun x => bigEndian 4 x.toNat

def Expr.serialize [Hashing H] : Expr ι H → Str
  | .eConst value => 0 :: value.serialize
  | .eFieldAccess field source => 1 :: (field ++ source.serialize)
  | .eEmbed modelVersion vector => 2 :: (bigEndian 2 modelVersion.toNat ++ vector.serialize)
  | .eCompose atoms => 3 :: atoms.flatMap Hashing.bytes
  | .eApply func arg => 4 :: (func.serialize ++ arg.serialize)
  | .eResonate queries => 5 :: (bigEndian 4 queries.length ++ queries.flatMap Embedding.serialize)

def Expr.exprHash [Hashing H] (e : Expr ι H) : H := Hashing.sha3 e.serialize

def Expr.constValue : Expr ι H → Option (Value ι)
  | .eConst value => some value
  | _ => none

theorem Expr.constValue_eq_some {e : Expr ι H} {v : Value ι} : e.constValue = some v ↔ e = .eConst v := by
  cases e <;> simp [constValue]

/-! ### Time -/

abbrev Time := ℤ

/-- `time.Time{}`, the first instant of year 1, which the source reads as "no deadline". -/
def zeroTime : Time := -62135596800 * 10 ^ 9

/-- `uint64(t.UnixNano())`, which wraps around outside the years 1678 to 2262. -/
def unixNano (t : Time) : ℕ := (t % 2 ^ 64).toNat

/-! ### Atoms -/

/-- `CausalAtom`. The clock of a store counts its appends; it is a natural number because the
`2 ^ 64` appends that would wrap it cannot happen. -/
structure CausalAtom (ι H : Type) where
  hash : H
  expr : Expr ι H
  causalPast : List H
  logicalClock : ℕ
  physicalTime : Time
  nonce : Str
  path : Str
  expiresAt : Time

namespace CausalAtom

/-- `ComputeHash`; the branch id is never set, so its sixteen bytes are zero. -/
def computeHash [Hashing H] (a : CausalAtom ι H) : H :=
  Hashing.sha3 (a.expr.serialize ++ bigEndian 8 a.logicalClock ++
    bigEndian 8 (unixNano a.physicalTime) ++ bigEndian 8 (unixNano a.expiresAt) ++
    a.nonce ++ List.replicate 16 0 ++ bigEndian 4 a.causalPast.length ++
    a.causalPast.flatMap Hashing.bytes)

/-- `!ExpiresAt.IsZero() && ExpiresAt.Before(now)` -/
def expired (a : CausalAtom ι H) (now : Time) : Bool :=
  a.expiresAt ≠ zeroTime ∧ a.expiresAt < now

/-- Whether the atom's expression is the constant `v`. -/
def Holds (a : CausalAtom ι H) (v : Value ι) : Prop := a.expr = .eConst v

end CausalAtom

end Wavicle.Core
