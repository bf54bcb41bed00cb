import Wavicle.Storage.WalRecord

/-! # What comes back from a record

The record of an atom is read back with all of its fields, but not always with its expression: a composite comes
back as it was, a string with U+FFFD for each byte that is not UTF-8, and every other constant as a tombstone. -/

namespace Wavicle.Storage

open Lib Wavicle.Core Json List

namespace RecordTexts

variable {ι H : Type} [Hashing H] (T : RecordTexts ι H)

/-- What is asked of the texts of times and floating-point numbers. -/
structure Lawful : Prop where
  parse_formatTime : ∀ {t s}, T.formatTime t = .ok s → T.parseTime s = some t
  valid_formatTime : ∀ {t s}, T.formatTime t = .ok s → validString s = true
  /-- finite numbers are written as numbers, within the range of their types -/
  number_float64 : ∀ {bits}, isFinite64 bits = true → isNumber (T.formatFloat64 bits) = true
  fits_float64 : ∀ {bits}, isFinite64 bits = true → T.fits64 (T.formatFloat64 bits) = true
  number_float32 : ∀ {bits}, isFinite32 bits = true → isNumber (T.formatFloat32 bits) = true
  fits_int64 : ∀ n : Int64, T.fits64 (decimalInt n.toInt) = true
  fits_zero : T.fits32 (str "0") = true
  length_bytes : ∀ h : H, (Hashing.bytes h).length = 32
  ofBytes_bytes : ∀ h : H, T.ofBytes (Hashing.bytes h) = h

variable {T}

/-! ### Well-formed trees -/

mutual

theorem Lawful.wellFormed_value (hT : T.Lawful) : ∀ v : Value ι, unsupportedValue v = none →
    (T.value v).WellFormed
  | .vNull, _ => trivial
  | .vBool _, _ => trivial
  | .vInt n, _ => isNumber_decimalInt n.toInt
  | .vFloat bits, h => by
    rw [unsupportedValue] at h
    by_cases hfinite : isFinite64 bits = true
    · exact hT.number_float64 hfinite
    · rw [if_neg hfinite] at h
      cases h
  | .vString _, _ => trivial
  | .vBytes _, _ => trivial
  | .vArray _ vs, h => hT.wellFormed_values vs h
  | .vRecord _ fs, h => hT.wellFormed_fieldValues fs h

theorem Lawful.wellFormed_values (hT : T.Lawful) : ∀ vs : List (Value ι),
    unsupportedValue.unsupportedElems vs = none → Json.WellFormed.wellFormedElems (value.values T vs)
  | [], _ => trivial
  | v :: vs, h =>
    have hboth := Option.or_eq_none_iff.1 h
    ⟨hT.wellFormed_value v hboth.1, hT.wellFormed_values vs hboth.2⟩

theorem Lawful.wellFormed_fieldValues (hT : T.Lawful) : ∀ fs : List (Str × Value ι),
    unsupportedValue.unsupportedFields fs = none → Json.WellFormed.wellFormedMembers (value.fieldValues T fs)
  | [], _ => trivial
  | (_, v) :: fs, h =>
    have hboth := Option.or_eq_none_iff.1 h
    ⟨hT.wellFormed_value v hboth.1, hT.wellFormed_fieldValues fs hboth.2⟩

end

mutual

theorem Lawful.fits_value (hT : T.Lawful) : ∀ v : Value ι, unsupportedValue v = none →
    (T.value v).numbersFit T.fits64 = true
  | .vNull, _ => rfl
  | .vBool _, _ => rfl
  | .vInt n, _ => hT.fits_int64 n
  | .vFloat bits, h => by
    rw [unsupportedValue] at h
    by_cases hfinite : isFinite64 bits = true
    · exact hT.fits_float64 hfinite
    · rw [if_neg hfinite] at h
      cases h
  | .vString _, _ => rfl
  | .vBytes _, _ => rfl
  | .vArray _ vs, h => hT.fits_values vs h
  | .vRecord _ fs, h => hT.fits_fieldValues fs h

theorem Lawful.fits_values (hT : T.Lawful) : ∀ vs : List (Value ι),
    unsupportedValue.unsupportedElems vs = none →
      numbersFit.fitElems T.fits64 (value.values T vs) = true
  | [], _ => rfl
  | v :: vs, h =>
    have hboth := Option.or_eq_none_iff.1 h
    Bool.and_eq_true_iff.2 ⟨hT.fits_value v hboth.1, hT.fits_values vs hboth.2⟩

theorem Lawful.fits_fieldValues (hT : T.Lawful) : ∀ fs : List (Str × Value ι),
    unsupportedValue.unsupportedFields fs = none →
      numbersFit.fitMembers T.fits64 (value.fieldValues T fs) = true
  | [], _ => rfl
  | (_, v) :: fs, h =>
    have hboth := Option.or_eq_none_iff.1 h
    Bool.and_eq_true_iff.2 ⟨hT.fits_value v hboth.1, hT.fits_fieldValues fs hboth.2⟩

end

theorem Lawful.wellFormed_embedding (hT : T.Lawful) {v : Embedding} (h : unsupportedEmbedding v = none) :
    (T.embedding v).WellFormed := by
  refine wellFormedElems_iff.2 fun j hj => ?_
  obtain ⟨x, hx, rfl⟩ := mem_map.1 hj
  have hfinite := List.find?_eq_none.1 (Option.map_eq_none_iff.1 h) x hx
  rw [Bool.not_eq_true, Bool.not_eq_false'] at hfinite
  exact hT.number_float32 hfinite

theorem wellFormed_hashes (hs : List H) : (hashes hs).WellFormed := by
  cases hs with
  | nil => exact trivial
  | cons h hs =>
    refine wellFormedElems_iff.2 fun j hj => ?_
    obtain ⟨h', -, rfl⟩ := mem_map.1 hj
    exact wellFormed_bytes _

omit [Hashing H] in
theorem wellFormed_header (typ : ℕ) (e : Expr ι H) {ms : List (Str × Json)}
    (hms : Json.WellFormed.wellFormedMembers ms) : (obj (T.header typ e ++ ms)).WellFormed :=
  ⟨isNumber_decimal _, isNumber_decimal _, trivial, isNumber_decimal _, hms⟩

theorem Lawful.wellFormed_expr (hT : T.Lawful) : ∀ e : Expr ι H, unsupportedExpr e = none →
    (T.expr e).WellFormed := by
  intro e he
  induction e with
  | eConst v => exact wellFormed_header 0 _ ⟨hT.wellFormed_value v he, trivial⟩
  | eFieldAccess name source ih => exact wellFormed_header 1 _ ⟨trivial, ih he, trivial⟩
  | eEmbed version vector =>
    exact wellFormed_header 2 _ ⟨isNumber_decimal _, hT.wellFormed_embedding he, trivial⟩
  | eCompose atoms => exact wellFormed_header 3 _ ⟨wellFormed_hashes atoms, trivial⟩
  | eApply func arg ihfunc iharg =>
    have hboth := Option.or_eq_none_iff.1 he
    exact wellFormed_header 4 _ ⟨ihfunc hboth.1, iharg hboth.2, trivial⟩
  | eResonate queries =>
    refine wellFormed_header 5 _ ⟨wellFormedElems_iff.2 fun j hj => ?_, trivial⟩
    obtain ⟨q, hq, rfl⟩ := mem_map.1 hj
    exact hT.wellFormed_embedding (List.findSome?_eq_none_iff.1 he q hq)

variable {a : CausalAtom ι H}

theorem Lawful.wellFormed_record (hT : T.Lawful) (ha : unsupportedExpr a.expr = none)
    (physicalTime expiresAt : Str) : (obj (T.record a physicalTime expiresAt)).WellFormed := by
  have hzeros : (arr (List.replicate 256 (.num (str "0")))).WellFormed := by
    refine wellFormedElems_iff.2 fun j hj => ?_
    rw [eq_of_mem_replicate hj]
    exact (by decide : isNumber (str "0") = true)
  exact ⟨wellFormed_bytes _, hT.wellFormed_expr _ ha, wellFormed_hashes _, isNumber_decimal _, hzeros,
    isNumber_decimal _, isNumber_decimal _, trivial, wellFormed_bytes _, wellFormed_bytes _,
    trivial, trivial, trivial⟩

/-! ### Fields -/

theorem hashes_cons (h : H) (hs : List H) :
    hashes (h :: hs) = .arr ((h :: hs).map fun h => .bytes (Hashing.bytes h)) := rfl

theorem coerce_hashes (hs : List H) : (hashes hs).coerce = hashes hs := by
  cases hs with
  | nil => rfl
  | cons h hs =>
    have hcoerce : (coerce ∘ fun h => .bytes (Hashing.bytes h)) = fun h : H => .bytes (Hashing.bytes h) :=
      funext fun h => coerce_bytes _
    rw [hashes_cons, coerce, coerceElems_eq_map, map_map, hcoerce]

theorem Lawful.decodeHash_bytes (hT : T.Lawful) (h : H) : T.decodeHash (.bytes (Hashing.bytes h)) = some h := by
  rw [decodeHash, decodeBytes_bytes_of_length (hT.length_bytes h), Option.map_some, hT.ofBytes_bytes]

theorem Lawful.decodeHashes_hashes (hT : T.Lawful) (old hs : List H) :
    T.decodeHashes old (hashes hs) = some hs := by
  cases hs with
  | nil => rfl
  | cons h hs =>
    rw [hashes_cons, decodeHashes, mapM_decode hT.decodeHash_bytes]

theorem Lawful.decodeVector_zeros (hT : T.Lawful) :
    T.decodeVector () (arr (List.replicate 256 (.num (str "0")))).coerce = some () := by
  have hfits : T.decodeFloat32 (.num (str "0")) = true := hT.fits_zero
  rw [coerce, coerceElems_eq_map, map_replicate, coerce, decodeVector, take_replicate,
    all_replicate, hfits]
  rfl

theorem distinct_record (a : CausalAtom ι H) (physicalTime expiresAt : Str) :
    Json.Distinct (T.record a physicalTime expiresAt) :=
  distinct_of_names [str "Hash", str "Expr", str "CausalPast", str "CausalDepth", str "Vector",
    str "Domain", str "LogicalClock", str "PhysicalTime", str "Nonce", str "BranchID", str "Path",
    str "ExpiresAt"] rfl (by decide)

def fitNonce (nonce : Str) : Str := nonce.take 16 ++ List.replicate (16 - (nonce.take 16).length) 0

theorem fitNonce_of_length {nonce : Str} (h : nonce.length = 16) : fitNonce nonce = nonce := by
  rw [fitNonce, take_of_length_le h.le, h, Nat.sub_self, replicate_zero, append_nil]

def returnedAtom (a : CausalAtom ι H) (e : Expr ι H) : CausalAtom ι H :=
  { a with expr := e, nonce := fitNonce a.nonce, path := coerceUtf8 a.path }

theorem domain_lt (d : Domain) : d.code < 256 := by
  cases d <;> decide

theorem Lawful.decodeFields_record (hT : T.Lawful) {physicalTime expiresAt : Str}
    (hphysical : T.formatTime a.physicalTime = .ok physicalTime)
    (hexpires : T.formatTime a.expiresAt = .ok expiresAt) (e : Expr ι H) :
    T.decodeFields (coerce.coerceMembers (T.record a physicalTime expiresAt)) e =
      some (returnedAtom a e) := by
  have hms : Json.Distinct (T.record a physicalTime expiresAt) := distinct_record a physicalTime expiresAt
  have htime : ∀ {t s}, T.formatTime t = .ok s → T.decodeTime zeroTime (text s).coerce = some t := by
    intro t s hts
    rw [coerce, coerceUtf8_eq_self_iff.2 (hT.valid_formatTime hts)]
    exact hT.parse_formatTime hts
  have hdomain : decodeByte 0 (num (decimal (inferDomain a.path).code)).coerce =
      some (inferDomain a.path).code.toUInt8 := by
    rw [coerce, decodeByte, digits_decimal, Option.bind_some, if_pos (domain_lt _)]
  have hhash := field_coerce hms (mem_of_getElem? (i := 0) rfl) (decodeBytes 32)
    (List.replicate 32 0)
  have hpast := field_coerce hms (mem_of_getElem? (i := 2) rfl) T.decodeHashes []
  have hdepth := field_coerce hms (mem_of_getElem? (i := 3) rfl) decodeNat 0
  have hvector := field_coerce hms (mem_of_getElem? (i := 4) rfl) T.decodeVector ()
  have hdom := field_coerce hms (mem_of_getElem? (i := 5) rfl) decodeByte 0
  have hclock := field_coerce hms (mem_of_getElem? (i := 6) rfl) decodeNat 0
  have hphys := field_coerce hms (mem_of_getElem? (i := 7) rfl) T.decodeTime zeroTime
  have hnonce := field_coerce hms (mem_of_getElem? (i := 8) rfl) (decodeBytes 16)
    (List.replicate 16 0)
  have hbranch := field_coerce hms (mem_of_getElem? (i := 9) rfl) (decodeBytes 16)
    (List.replicate 16 0)
  have hpath := field_coerce hms (mem_of_getElem? (i := 10) rfl) decodeText []
  have hexp := field_coerce hms (mem_of_getElem? (i := 11) rfl) T.decodeTime zeroTime
  rw [coerce_bytes, decodeBytes_bytes_of_length (hT.length_bytes a.hash)] at hhash
  rw [coerce_hashes, hT.decodeHashes_hashes] at hpast
  rw [hT.decodeVector_zeros] at hvector
  rw [hdomain] at hdom
  rw [htime hphysical] at hphys
  rw [coerce_bytes, decodeBytes_bytes] at hnonce hbranch
  rw [htime hexpires] at hexp
  rw [coerce, decodeNat, digits_decimal] at hdepth hclock
  rw [decodeFields, hhash, hpast, hdepth, hvector, hdom, hclock, hphys, hnonce, hbranch, hpath, hexp]
  simp only [Option.bind_eq_bind, Option.bind_some, coerce, decodeText, hT.ofBytes_bytes]
  rfl

/-! ### Expressions -/

def returnedValue : Value ι → Value ι
  | .vString s => .vString (coerceUtf8 s)
  | .vBytes b => .vString (coerceUtf8 (base64 b))
  | _ => .vNull

def returnedExpr : Expr ι H → Except DecodeFailure (Expr ι H)
  | .eConst v => .ok (.eConst (returnedValue v))
  | .eCompose (h :: hs) => .ok (.eCompose (h :: hs))
  | .eFieldAccess (_ :: _) _ => .error .panics
  | _ => .ok (.eConst .vNull)

omit [Hashing H] in
theorem decodeExpr_constant {j : Json} {v : Value ι} (hatoms : T.decodeAtoms j = some [])
    (hname : decodeFieldName j = some []) (hvalue : T.decodeValue j = some v) :
    T.decodeExpr j = .ok (.eConst v) := by
  unfold decodeExpr
  rw [hatoms, hname, hvalue]

section Objects

variable {ms : List (Str × Json)} (hms : Json.Distinct ms)

include hms

omit [Hashing H] in
theorem decodeAtoms_absent (h : Json.Absent (str "Atoms") ms) : T.decodeAtoms (obj ms).coerce = some [] :=
  field_coerce_absent hms h _ _

theorem decodeFieldName_absent (h : Json.Absent (str "Field") ms) :
    decodeFieldName (obj ms).coerce = some [] :=
  field_coerce_absent hms h _ _

omit [Hashing H] in
theorem decodeValue_absent (h : Json.Absent (str "Value") ms) :
    T.decodeValue (obj ms).coerce = some .vNull := by
  have hnone : members (str "Value") (coerce.coerceMembers ms) = [] :=
    members_coerce_absent hms h
  rw [coerce, decodeValue, structMembers, Option.bind_some, hnone]
  rfl

omit [Hashing H] in
theorem decodeValue_member {j : Json} (h : (str "Value", j) ∈ ms) (hfits : j.numbersFit T.fits64 = true) :
    T.decodeValue (obj ms).coerce = some (stringValue (some j.coerce)) := by
  rw [coerce, decodeValue, structMembers, Option.bind_some, members_coerce hms h, all_cons,
    numbersFit_coerce, hfits]
  rfl

end Objects

def exprNames (more : List Str) : List Str := [str "Typ", str "ID", str "Hash", str "Depth"] ++ more

omit [Hashing H] in
theorem decodeExpr_absent {ms : List (Str × Json)} (more : List Str) (hnames : ms.map (·.1) = exprNames more)
    (hdistinct : ((exprNames more).map foldName).Nodup ∧ ∀ k ∈ exprNames more, validString k = true)
    (habsent : ∀ k ∈ [str "Atoms", str "Field", str "Value"],
      foldName k ∉ (exprNames more).map foldName) :
    T.decodeExpr (obj ms).coerce = .ok (.eConst .vNull) := by
  have hms : Json.Distinct ms := distinct_of_names _ hnames hdistinct
  simp only [forall_mem_cons] at habsent
  obtain ⟨hatoms, hname, hvalue, -⟩ := habsent
  exact decodeExpr_constant (decodeAtoms_absent hms (absent_of_names _ hnames hatoms))
    (decodeFieldName_absent hms (absent_of_names _ hnames hname))
    (decodeValue_absent hms (absent_of_names _ hnames hvalue))

omit [Hashing H] in
theorem stringValue_value (v : Value ι) : stringValue (some (T.value v).coerce) = returnedValue v := by
  cases v <;> rfl

theorem coerceUtf8_eq_nil {s : Str} : coerceUtf8 s = [] ↔ s = [] := by
  constructor
  · intro h
    have hle := length_le_coerceUtf8 s
    rw [h, length_nil] at hle
    exact eq_nil_of_length_eq_zero (Nat.le_zero.1 hle)
  · rintro rfl
    rfl

theorem Lawful.decodeExpr_expr (hT : T.Lawful) (e : Expr ι H) (he : unsupportedExpr e = none) :
    T.decodeExpr (T.expr e).coerce = returnedExpr e := by
  cases e with
  | eConst v =>
    have hms : Json.Distinct (T.header 0 (.eConst v) ++ [(str "Value", T.value v)]) :=
      distinct_of_names (exprNames [str "Value"]) rfl (by decide)
    have hvalue := decodeValue_member hms (mem_of_getElem? (i := 4) rfl) (hT.fits_value v he)
    rw [stringValue_value] at hvalue
    exact decodeExpr_constant
      (decodeAtoms_absent hms (absent_of_names (exprNames [str "Value"]) rfl (by decide)))
      (decodeFieldName_absent hms (absent_of_names (exprNames [str "Value"]) rfl (by decide))) hvalue
  | eFieldAccess name source =>
    have hms : Json.Distinct (T.header 1 (.eFieldAccess name source) ++
        [(str "Field", .text name), (str "Source", T.expr source)]) :=
      distinct_of_names (exprNames [str "Field", str "Source"]) rfl (by decide)
    have hatoms : T.decodeAtoms (T.expr (.eFieldAccess name source)).coerce = some [] :=
      decodeAtoms_absent hms (absent_of_names (exprNames [str "Field", str "Source"]) rfl (by decide))
    have hname : decodeFieldName (T.expr (.eFieldAccess name source)).coerce = some (coerceUtf8 name) :=
      field_coerce hms (mem_of_getElem? (i := 4) rfl) decodeText []
    cases name with
    | nil =>
      exact decodeExpr_constant hatoms hname
        (decodeValue_absent hms (absent_of_names (exprNames [str "Field", str "Source"]) rfl (by decide)))
    | cons b name =>
      obtain ⟨c, s, hcs⟩ := exists_cons_of_ne_nil
        (fun hnil => cons_ne_nil b name (coerceUtf8_eq_nil.1 hnil))
      unfold decodeExpr
      rw [hatoms, hname, hcs]
      rfl
  | eEmbed version vector => exact decodeExpr_absent [str "ModelVersion", str "Vector"] rfl (by decide) (by decide)
  | eCompose hs =>
    have hms : Json.Distinct (T.header 3 (.eCompose hs) ++ [(str "Atoms", hashes hs)]) :=
      distinct_of_names (exprNames [str "Atoms"]) rfl (by decide)
    have hatoms : T.decodeAtoms (T.expr (.eCompose hs)).coerce = some hs := by
      have hfield := field_coerce hms (mem_of_getElem? (i := 4) rfl) T.decodeHashes []
      rw [coerce_hashes, hT.decodeHashes_hashes] at hfield
      exact hfield
    cases hs with
    | nil =>
      exact decodeExpr_constant hatoms
        (decodeFieldName_absent hms (absent_of_names (exprNames [str "Atoms"]) rfl (by decide)))
        (decodeValue_absent hms (absent_of_names (exprNames [str "Atoms"]) rfl (by decide)))
    | cons h hs =>
      unfold decodeExpr
      rw [hatoms]
      rfl
  | eApply func arg => exact decodeExpr_absent [str "Func", str "Arg"] rfl (by decide) (by decide)
  | eResonate queries => exact decodeExpr_absent [str "Queries"] rfl (by decide) (by decide)

/-! ### Records -/

theorem marshal_eq_ok {data : Str} : T.marshal a = .ok data ↔
    unsupportedExpr a.expr = none ∧ ∃ physicalTime expiresAt, T.formatTime a.physicalTime = .ok physicalTime ∧
      T.formatTime a.expiresAt = .ok expiresAt ∧ data = (obj (T.record a physicalTime expiresAt)).render := by
  unfold marshal
  cases hexpr : unsupportedExpr a.expr with
  | some msg => simp
  | none =>
    cases hphysical : T.formatTime a.physicalTime with
    | error msg => simp [Except.bind]
    | ok physicalTime =>
      cases hexpires : T.formatTime a.expiresAt with
      | error msg => simp [Except.bind, Except.map]
      | ok expiresAt => simp [Except.bind, Except.map, eq_comm]

theorem Lawful.decodeRecord_record (hT : T.Lawful) {physicalTime expiresAt : Str}
    (ha : unsupportedExpr a.expr = none) (hphysical : T.formatTime a.physicalTime = .ok physicalTime)
    (hexpires : T.formatTime a.expiresAt = .ok expiresAt) :
    T.decodeRecord (coerce.coerceMembers (T.record a physicalTime expiresAt)) =
      (returnedExpr a.expr).map (returnedAtom a) := by
  have hexpr : members (str "Expr") (coerce.coerceMembers (T.record a physicalTime expiresAt)) =
      [(T.expr a.expr).coerce] :=
    members_coerce (distinct_record a physicalTime expiresAt) (mem_of_getElem? (i := 1) rfl)
  unfold decodeRecord
  rw [hT.decodeFields_record hphysical hexpires, hexpr]
  change (T.decodeExpr (T.expr a.expr).coerce).map _ = _
  rw [hT.decodeExpr_expr a.expr ha]
  rfl

theorem depth_hashes_le (hs : List H) : (hashes hs).depth ≤ 2 := by
  cases hs with
  | nil => exact Nat.zero_le 2
  | cons h hs =>
    refine Nat.succ_le_succ (depthElems_le_iff.2 fun j hj => ?_)
    obtain ⟨h', -, rfl⟩ := mem_map.1 hj
    exact depth_bytes_le _

theorem depth_record_le (a : CausalAtom ι H) (physicalTime expiresAt : Str) :
    (obj (T.record a physicalTime expiresAt)).depth ≤ max 2 (T.expr a.expr).depth + 1 := by
  have hhash := depth_bytes_le (Hashing.bytes a.hash)
  have hpast := depth_hashes_le a.causalPast
  have hzeros : Json.depth.depthElems (List.replicate 256 (.num (str "0"))) ≤ 0 :=
    depthElems_le_iff.2 fun j hj => (eq_of_mem_replicate hj) ▸ le_rfl
  have hnonce := depth_bytes_le a.nonce
  have hbranch := depth_bytes_le (List.replicate 16 0)
  simp only [record, Json.depth, Json.depth.depthMembers]
  omega

/-- **What comes back from a record**, if it is not nested too deeply. -/
theorem Lawful.unmarshalJSON_marshal (hT : T.Lawful) {data : Str} (hdata : T.marshal a = .ok data)
    (hdepth : (T.expr a.expr).depth < maxNestingDepth) :
    T.unmarshalJSON data = (returnedExpr a.expr).map (returnedAtom a) := by
  obtain ⟨ha, physicalTime, expiresAt, hphysical, hexpires, rfl⟩ := marshal_eq_ok.1 hdata
  have hmax : (obj (T.record a physicalTime expiresAt)).depth ≤ maxNestingDepth := by
    have hle := depth_record_le (T := T) a physicalTime expiresAt
    have hthree : 3 ≤ maxNestingDepth := by decide
    omega
  unfold unmarshalJSON
  rw [parse_render (hT.wellFormed_record ha physicalTime expiresAt) hmax]
  exact hT.decodeRecord_record ha hphysical hexpires

theorem Lawful.of_unmarshalJSON_eq_ok (hT : T.Lawful) {b : CausalAtom ι H} {data : Str}
    (hdata : T.marshal a = .ok data) (hb : T.unmarshalJSON data = .ok b) :
    (returnedExpr a.expr).map (returnedAtom a) = .ok b := by
  obtain ⟨ha, physicalTime, expiresAt, hphysical, hexpires, rfl⟩ := marshal_eq_ok.1 hdata
  unfold unmarshalJSON at hb
  cases hparse : parse (obj (T.record a physicalTime expiresAt)).render with
  | none =>
    rw [hparse] at hb
    cases hb
  | some j =>
    rw [hparse, parse_render_eq (hT.wellFormed_record ha physicalTime expiresAt) hparse] at hb
    exact (hT.decodeRecord_record ha hphysical hexpires).symm.trans hb

end RecordTexts

/-! ### Plain texts

Texts that are easy to evaluate: a time is its decimal number, and a hash is the beginning of what is hashed. -/

/-- The 32 bytes of a hash. -/
structure Digest where
  bytes : Str
  length_bytes : bytes.length = 32
  deriving DecidableEq

namespace Digest

theorem length_filled (s : Str) : ((s ++ List.replicate 32 0).take 32).length = 32 := by
  rw [length_take, length_append, length_replicate]
  omega

def ofText (s : Str) : Digest := ⟨(s ++ List.replicate 32 0).take 32, length_filled s⟩

instance hashing : Hashing Digest :=
  ⟨ofText, bytes, fun s => (s.foldl (fun n (b : UInt8) => n * 257 + b.toNat + 1) 0).toUInt64⟩

theorem ofText_bytes (h : Digest) : ofText h.bytes = h := by
  obtain ⟨s, hs⟩ := h
  have hcut : (s ++ List.replicate 32 0).take 32 = s := by
    rw [← hs]
    exact take_left
  exact congr_dep hcut
where
  congr_dep {s t : Str} {hs : s.length = 32} {ht : t.length = 32} (h : s = t) : (⟨s, hs⟩ : Digest) = ⟨t, ht⟩ := by
    subst h
    rfl

end Digest

def readDecimalInt (s : Str) : Option ℤ :=
  if s.head? = some 45 then (digits s.tail).map fun n : ℕ => -(n : ℤ) else (digits s).map fun n : ℕ => (n : ℤ)

theorem readDecimalInt_decimalInt (n : ℤ) : readDecimalInt (decimalInt n) = some n := by
  unfold readDecimalInt decimalInt
  by_cases hneg : n < 0
  · have hhead : (str "-" ++ decimal n.natAbs).head? = some 45 := rfl
    have htail : (str "-" ++ decimal n.natAbs).tail = decimal n.natAbs := rfl
    rw [if_pos hneg, if_pos hhead, htail, digits_decimal, Option.map_some]
    exact congrArg some (by omega)
  · have hhead : ([] ++ decimal n.natAbs).head? ≠ some 45 := by
      intro heq
      have hmem : (45 : UInt8) ∈ decimal n.natAbs := mem_of_mem_head? heq
      have hdigit := isDigit_of_mem_decimal 45 hmem
      cases hdigit
    rw [if_neg hneg, if_neg hhead, nil_append, digits_decimal, Option.map_some]
    exact congrArg some (by omega)

theorem isASCII_decimalInt (n : ℤ) : isASCII (decimalInt n) = true := by
  have hdecimal : (decimal n.natAbs).all (· < 128) = true := by
    refine all_eq_true.2 fun b hb => decide_eq_true ?_
    have hdigit := of_decide_eq_true (isDigit_of_mem_decimal b hb)
    exact UInt8.lt_of_le_of_lt hdigit.2 (by decide)
  unfold decimalInt isASCII
  rw [all_append, hdecimal, Bool.and_true]
  split_ifs <;> rfl

def plainTexts : RecordTexts Unit Digest where
  formatTime t := .ok (decimalInt t)
  parseTime := readDecimalInt
  formatFloat64 _ := str "0"
  formatFloat32 _ := str "0"
  fits64 _ := true
  fits32 _ := true
  ofBytes := Digest.ofText
  id _ := 1
  depth _ := 0
  causalDepth _ := 0

theorem plainTexts_lawful : plainTexts.Lawful where
  parse_formatTime h := by
    obtain rfl := Except.ok.inj h
    exact readDecimalInt_decimalInt _
  valid_formatTime h := by
    obtain rfl := Except.ok.inj h
    exact validString_of_isASCII (isASCII_decimalInt _)
  number_float64 _ := (by decide : isNumber (str "0") = true)
  fits_float64 _ := rfl
  number_float32 _ := (by decide : isNumber (str "0") = true)
  fits_int64 _ := rfl
  fits_zero := rfl
  length_bytes h := h.length_bytes
  ofBytes_bytes := Digest.ofText_bytes

end Wavicle.Storage
