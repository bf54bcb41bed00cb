import Wavicle.Lib.JsonDecode
import Wavicle.Storage.Compaction

/-! # Records of the log

What `json.Marshal` makes of a `CausalAtom`, by reflection, and what `CausalAtom.UnmarshalJSON` reads from it. The
decoder is given no type: it tries a composite, then a field access, and takes anything else for a constant, whose
value is kept only if it is a string. How Go writes and reads times and floating-point numbers is a parameter; so are
the numbers in a record that no modelled function reads. -/

namespace Wavicle.Storage

open Lib Wavicle.Core Json

/-! ### Domains -/

/-- The domain of an atom, by the start of its path. -/
inductive Domain where
  | user
  | order
  | product
  | session
  | config
  | analytics
  | system
  deriving DecidableEq

def Domain.code : Domain → ℕ
  | .user => 0
  | .order => 1
  | .product => 2
  | .session => 3
  | .config => 4
  | .analytics => 5
  | .system => 6

def inferDomain (path : Str) : Domain :=
  match path.head? with
  | none => .system
  | some b =>
    if b = 117 ∨ b = 85 then .user
    else if b = 111 ∨ b = 79 then .order
    else if b = 112 ∨ b = 80 then .product
    else if b = 115 ∨ b = 83 then
      if 3 < path.length ∧ path.take 3 ∈ [str "ses", str "SES", str "Ses"] then .session else .system
    else if b = 97 ∨ b = 65 then .analytics
    else if b = 99 ∨ b = 67 then .config
    else .system

example : inferDomain (str "session:1") = .session ∧ inferDomain (str "ses") = .system := by decide

/-! ### Texts -/

/-- What a record contains besides its atom, and how the parts of it that are not JSON are written. -/
structure RecordTexts (ι H : Type) where
  /-- `Time.MarshalJSON`, without the quotes; it fails for a year of more than four digits -/
  formatTime : Time → Except Str Str
  /-- `Time.UnmarshalJSON` -/
  parseTime : Str → Option Time
  /-- a finite `float64` in JSON -/
  formatFloat64 : UInt64 → Str
  /-- a finite `float32` in JSON -/
  formatFloat32 : UInt32 → Str
  /-- `strconv.ParseFloat(token, 64)` returns no error -/
  fits64 : Str → Bool
  /-- `strconv.ParseFloat(token, 32)` returns no error -/
  fits32 : Str → Bool
  ofBytes : Str → H
  /-- `ExprHeader.ID` -/
  id : Expr ι H → ℕ
  /-- `ExprHeader.Depth` -/
  depth : Expr ι H → ℕ
  /-- `CausalDepth` -/
  causalDepth : CausalAtom ι H → ℕ

def base64Digit (n : ℕ) : UInt8 :=
  if n < 26 then (65 + n).toUInt8 else if n < 52 then (71 + n).toUInt8
  else if n < 62 then (n - 4).toUInt8 else if n = 62 then 43 else 47

/-- `base64.StdEncoding`, in which `json.Marshal` writes a `[]byte` -/
def base64 : Str → Str
  | a :: b :: c :: s =>
    let n := (a.toNat * 256 + b.toNat) * 256 + c.toNat
    base64Digit (n / 262144) :: base64Digit (n / 4096 % 64) :: base64Digit (n / 64 % 64) ::
      base64Digit (n % 64) :: base64 s
  | [a, b] =>
    let n := (a.toNat * 256 + b.toNat) * 4
    [base64Digit (n / 4096), base64Digit (n / 64 % 64), base64Digit (n % 64), 61]
  | [a] => [base64Digit (a.toNat * 16 / 64), base64Digit (a.toNat * 16 % 64), 61, 61]
  | [] => []

example : base64 (str "Many") = str "TWFueQ==" := by decide

def isFinite64 (bits : UInt64) : Bool := bits.toNat % 2 ^ 63 < 0x7FF0000000000000

def isFinite32 (bits : UInt32) : Bool := bits.toNat % 2 ^ 31 < 0x7F800000

/-- The error of `json.Marshal` for a number that is not finite. -/
def unsupportedFloat (nan negative : Bool) : Str :=
  str "json: unsupported value: " ++ if nan then str "NaN" else if negative then str "-Inf" else str "+Inf"

/-- The error of `json.Marshal` for a value, if it has one. -/
def unsupportedValue {ι : Type} : Value ι → Option Str
  | .vFloat bits =>
    if isFinite64 bits then none
    else some (unsupportedFloat (0x7FF0000000000000 < bits.toNat % 2 ^ 63) (2 ^ 63 ≤ bits.toNat))
  | .vArray _ elems => unsupportedElems elems
  | .vRecord _ fields => unsupportedFields fields
  | _ => none
where
  unsupportedElems : List (Value ι) → Option Str
    | [] => none
    | v :: vs => (unsupportedValue v).or (unsupportedElems vs)
  unsupportedFields : List (Str × Value ι) → Option Str
    | [] => none
    | (_, v) :: fs => (unsupportedValue v).or (unsupportedFields fs)

/-- The error of `json.Marshal` for an embedding. -/
def unsupportedEmbedding (v : Embedding) : Option Str :=
  (v.toList.find? fun x => !isFinite32 x).map fun x =>
    unsupportedFloat (0x7F800000 < x.toNat % 2 ^ 31) (2 ^ 31 ≤ x.toNat)

/-- The error of `json.Marshal` for an expression. -/
def unsupportedExpr {ι H : Type} : Expr ι H → Option Str
  | .eConst value => unsupportedValue value
  | .eFieldAccess _ source => unsupportedExpr source
  | .eEmbed _ vector => unsupportedEmbedding vector
  | .eCompose _ => none
  | .eApply func arg => (unsupportedExpr func).or (unsupportedExpr arg)
  | .eResonate queries => queries.findSome? unsupportedEmbedding

/-! ### Encoding -/

namespace RecordTexts

variable {ι H : Type} (T : RecordTexts ι H)

/-- A value, as `json.Marshal` writes it. Slices and maps are taken to be made, not nil. -/
def value : Value ι → Json
  | .vNull => .obj []
  | .vBool b => .bool b
  | .vInt n => .num (decimalInt n.toInt)
  | .vFloat bits => .num (T.formatFloat64 bits)
  | .vString s => .text s
  | .vBytes b => .text (base64 b)
  | .vArray _ elems => .arr (values elems)
  | .vRecord _ fields => .obj (fieldValues fields)
where
  values : List (Value ι) → List Json
    | [] => []
    | v :: vs => value v :: values vs
  fieldValues : List (Str × Value ι) → List (Str × Json)
    | [] => []
    | (k, v) :: fs => (k, value v) :: fieldValues fs

def embedding (v : Embedding) : Json := .arr (v.toList.map fun x => .num (T.formatFloat32 x))

/-- The promoted fields of the `ExprHeader`; its `atomic.Uint64` has no exported ones. -/
def header (typ : ℕ) (e : Expr ι H) : List (Str × Json) :=
  [(str "Typ", .num (decimal typ)), (str "ID", .num (decimal (T.id e))), (str "Hash", .obj []),
    (str "Depth", .num (decimal (T.depth e)))]

variable [Hashing H]

def hashes : List H → Json
  | [] => .null
  | hs => .arr (hs.map fun h => .bytes (Hashing.bytes h))

/-- An expression, as `json.Marshal` writes it. -/
def expr : Expr ι H → Json
  | .eConst value => .obj (T.header 0 (.eConst value) ++ [(str "Value", T.value value)])
  | .eFieldAccess name source =>
    .obj (T.header 1 (.eFieldAccess name source) ++ [(str "Field", .text name), (str "Source", expr source)])
  | .eEmbed modelVersion vector =>
    .obj (T.header 2 (.eEmbed modelVersion vector) ++
      [(str "ModelVersion", .num (decimal modelVersion.toNat)), (str "Vector", T.embedding vector)])
  | .eCompose atoms => .obj (T.header 3 (.eCompose atoms) ++ [(str "Atoms", hashes atoms)])
  | .eApply func arg =>
    .obj (T.header 4 (.eApply func arg) ++ [(str "Func", expr func), (str "Arg", expr arg)])
  | .eResonate queries =>
    .obj (T.header 5 (.eResonate queries) ++ [(str "Queries", .arr (queries.map T.embedding))])

/-- The record of an atom, with the texts of its times. No atom has a vector or a branch. -/
def record (a : CausalAtom ι H) (physicalTime expiresAt : Str) : List (Str × Json) :=
  [(str "Hash", .bytes (Hashing.bytes a.hash)), (str "Expr", T.expr a.expr),
    (str "CausalPast", hashes a.causalPast), (str "CausalDepth", .num (decimal (T.causalDepth a))),
    (str "Vector", .arr (List.replicate 256 (.num (str "0")))),
    (str "Domain", .num (decimal (inferDomain a.path).code)),
    (str "LogicalClock", .num (decimal a.logicalClock)), (str "PhysicalTime", .text physicalTime),
    (str "Nonce", .bytes a.nonce), (str "BranchID", .bytes (List.replicate 16 0)),
    (str "Path", .text a.path), (str "ExpiresAt", .text expiresAt)]

def marshal (a : CausalAtom ι H) : Except Str Str :=
  match unsupportedExpr a.expr with
  | some msg => .error msg
  | none => (T.formatTime a.physicalTime).bind fun physicalTime =>
    (T.formatTime a.expiresAt).map fun expiresAt => (obj (T.record a physicalTime expiresAt)).render

/-! ### Decoding -/

end RecordTexts

/-- How `CausalAtom.UnmarshalJSON` may end without an atom. -/
inductive DecodeFailure where
  | error
  | panics
  deriving DecidableEq

namespace RecordTexts

variable {ι H : Type} (T : RecordTexts ι H)

def decodeHash (j : Json) : Option H := (decodeBytes 32 (List.replicate 32 0) j).map T.ofBytes

def decodeHashes (_ : List H) : Json → Option (List H)
  | .null => some []
  | .arr js => js.mapM T.decodeHash
  | _ => none

def decodeTime (old : Time) : Json → Option Time
  | .null => some old
  | .text s => T.parseTime s
  | _ => none

/-- A component of a `Vector`, which nobody reads. -/
def decodeFloat32 : Json → Bool
  | .null => true
  | .num token => T.fits32 token
  | _ => false

def decodeVector (_ : Unit) : Json → Option Unit
  | .null => some ()
  | .arr js => if (js.take 256).all T.decodeFloat32 then some () else none
  | _ => none

/-- `json.Unmarshal(data, &aux)`: the fields of the atom but its expression -/
def decodeFields (ms : List (Str × Json)) (e : Expr ι H) : Option (CausalAtom ι H) := do
  let hash ← field (decodeBytes 32) (List.replicate 32 0) (str "Hash") ms
  let causalPast ← field T.decodeHashes [] (str "CausalPast") ms
  let _ ← field decodeNat 0 (str "CausalDepth") ms
  let _ ← field T.decodeVector () (str "Vector") ms
  let _ ← field decodeByte 0 (str "Domain") ms
  let logicalClock ← field decodeNat 0 (str "LogicalClock") ms
  let physicalTime ← field T.decodeTime zeroTime (str "PhysicalTime") ms
  let nonce ← field (decodeBytes 16) (List.replicate 16 0) (str "Nonce") ms
  let _ ← field (decodeBytes 16) (List.replicate 16 0) (str "BranchID") ms
  let path ← field decodeText [] (str "Path") ms
  let expiresAt ← field T.decodeTime zeroTime (str "ExpiresAt") ms
  pure { hash := T.ofBytes hash, expr := e, causalPast, logicalClock, physicalTime, nonce, path, expiresAt }

/-- The members that a struct is decoded from; `null` leaves the struct as it is. -/
def structMembers : Json → Option (List (Str × Json))
  | .obj ms => some ms
  | .null => some []
  | _ => none

def decodeAtoms (j : Json) : Option (List H) :=
  (structMembers j).bind (field T.decodeHashes [] (str "Atoms"))

def decodeFieldName (j : Json) : Option Str :=
  (structMembers j).bind (field decodeText [] (str "Field"))

/-- The string in an `interface{}`; everything else is taken for a tombstone. -/
def stringValue : Option Json → Value ι
  | some (.text s) => .vString s
  | _ => .vNull

def decodeValue (j : Json) : Option (Value ι) :=
  (structMembers j).bind fun ms =>
    if (members (str "Value") ms).all (numbersFit T.fits64) then
      some (stringValue (members (str "Value") ms).getLast?)
    else none

/-- The expression of a record. `NewEFieldAccess(eField.Field, nil)` panics: interning the expression looks for
the header of its source. -/
def decodeExpr (j : Json) : Except DecodeFailure (Expr ι H) :=
  match T.decodeAtoms j with
  | some (h :: hs) => .ok (.eCompose (h :: hs))
  | _ =>
    match decodeFieldName j with
    | some (_ :: _) => .error .panics
    | _ =>
      match T.decodeValue j with
      | some v => .ok (.eConst v)
      | none => .error .error

/-- The atom of an object: first all fields are decoded, then the expression, if there is one. -/
def decodeRecord (ms : List (Str × Json)) : Except DecodeFailure (CausalAtom ι H) :=
  match T.decodeFields ms (.eConst .vNull) with
  | none => .error .error
  | some a =>
    match (members (str "Expr") ms).getLast? with
    | none => .error .error
    | some j => (T.decodeExpr j).map fun e => { a with expr := e }

/-- `CausalAtom.UnmarshalJSON`, before the expression is interned. For `null`, `aux` is nil when its field is
read. -/
def unmarshalJSON (data : Str) : Except DecodeFailure (CausalAtom ι H) :=
  match parse data with
  | some (.obj ms) => T.decodeRecord ms
  | some .null => .error .panics
  | _ => .error .error

variable [Hashing H]

def isZero (h : H) : Bool := Hashing.bytes h = List.replicate 32 0

/-- The atom that `ReadAll` takes from a line, if any. -/
def read (data : Str) : Option (CausalAtom ι H) :=
  match T.unmarshalJSON data with
  | .ok a => if isZero a.hash then none else some a
  | .error _ => none

def codec : LogCodec ι H := ⟨T.marshal, T.read⟩

end RecordTexts

end Wavicle.Storage
