import Wavicle.Lib.Bufio
import Wavicle.Storage.RecoveredValues
import Wavicle.Storage.SequentialReplay

/-! # The log as a file

`Append` and `ReadAll` of `storage/wal.go`, on the bytes of the file. The reader skips lines that it cannot
decode, and stops at one that does not fit into its buffer. -/

namespace Wavicle.Storage

open Lib Wavicle.Core List

namespace RecordTexts

variable {ι H : Type} [DecidableEq H] [Hashing H] (T : RecordTexts ι H)

/-- `WAL.Append`, on a file that has no error: the file afterwards -/
def append (file : Str) (a : CausalAtom ι H) : Except Str Str :=
  (T.codec.line a).map fun data => file ++ (data ++ [10])

def appendAll (file : Str) (atoms : List (CausalAtom ι H)) : Except Str Str := atoms.foldlM T.append file

/-- What `ReadAll` takes from a line: an atom or nothing, unless it panics. -/
def readLine (data : Str) : Option (Option (CausalAtom ι H)) :=
  if data = [] then some none
  else match T.unmarshalJSON data with
    | .ok a => some (if isZero a.hash then none else some a)
    | .error .error => some none
    | .error .panics => none

def readAll (file : Str) : Option (List (CausalAtom ι H)) :=
  ((scanLines maxLineSize file).1.mapM T.readLine).map List.reduceOption

/-! ### Lines -/

section Lines

/-- The loop of `ReadAll`, line by line. -/
def readLines : List Str → Option (List (CausalAtom ι H))
  | [] => some []
  | line :: rest =>
    if line.length < maxLineSize then
      (T.readLine (dropCR line)).bind fun r => (readLines rest).map fun atoms => r.toList ++ atoms
    else some []

variable {T}

section

omit [DecidableEq H]

theorem readAll_eq_readLines (file : Str) : T.readAll file = T.readLines (rawLines file) := by
  unfold readAll scanLines
  dsimp only
  induction rawLines file with
  | nil => rfl
  | cons line rest ih =>
    rw [readLines]
    by_cases hlt : line.length < maxLineSize
    · rw [if_pos hlt, takeWhile_cons_of_pos (by simpa using hlt), map_cons, mapM_cons, ← ih]
      cases T.readLine (dropCR line) with
      | none => rfl
      | some r =>
        cases ((rest.takeWhile fun l => l.length < maxLineSize).map dropCR).mapM T.readLine with
        | none => rfl
        | some rs => cases r <;> rfl
    · rw [if_neg hlt, takeWhile_cons_of_neg (by simpa using hlt)]
      rfl

theorem readLines_cons {data : Str} (hlt : data.length < maxLineSize) (rest : List Str) :
    T.readLines (data :: rest) =
      (T.readLine (dropCR data)).bind fun r => (T.readLines rest).map fun atoms => r.toList ++ atoms := by
  rw [readLines, if_pos hlt]

theorem readLines_cons_long {data : Str} (hlong : ¬ data.length < maxLineSize) (rest : List Str) :
    T.readLines (data :: rest) = some [] := by
  rw [readLines, if_neg hlong]

end

omit [DecidableEq H] [Hashing H] in
theorem length_toList_le (r : Option (CausalAtom ι H)) : r.toList.length ≤ 1 := by
  cases r <;> simp

omit [DecidableEq H] in
theorem length_le_of_readLines : ∀ {lines : List Str} {atoms : List (CausalAtom ι H)},
    T.readLines lines = some atoms → atoms.length ≤ lines.length
  | [], atoms, h => by
    obtain rfl := Option.some.inj h
    exact le_rfl
  | data :: rest, atoms, h => by
    by_cases hlt : data.length < maxLineSize
    · rw [readLines_cons hlt] at h
      obtain ⟨r, -, hrest⟩ := Option.bind_eq_some_iff.1 h
      obtain ⟨atoms', hatoms', rfl⟩ := Option.map_eq_some_iff.1 hrest
      have hle := length_le_of_readLines hatoms'
      have hone := length_toList_le r
      rw [length_append, length_cons]
      omega
    · rw [readLines_cons_long hlt] at h
      obtain rfl := Option.some.inj h
      exact Nat.zero_le _

omit [DecidableEq H] in
theorem length_lt_of_readLines {before after : List Str} {data : Str}
    (hdata : ∀ a, T.readLine (dropCR data) ≠ some (some a)) : ∀ {atoms : List (CausalAtom ι H)},
    T.readLines (before ++ data :: after) = some atoms → atoms.length < (before ++ data :: after).length := by
  induction before with
  | nil =>
    intro atoms h
    rw [nil_append] at h ⊢
    by_cases hlt : data.length < maxLineSize
    · rw [readLines_cons hlt] at h
      obtain ⟨r, hr, hrest⟩ := Option.bind_eq_some_iff.1 h
      obtain ⟨atoms', hatoms', rfl⟩ := Option.map_eq_some_iff.1 hrest
      have hle := length_le_of_readLines hatoms'
      cases r with
      | none => simpa using Nat.lt_succ_of_le hle
      | some a => exact absurd hr (hdata a)
    · rw [readLines_cons_long hlt] at h
      obtain rfl := Option.some.inj h
      exact Nat.succ_pos _
  | cons first before ih =>
    intro atoms h
    rw [cons_append] at h ⊢
    by_cases hlt : first.length < maxLineSize
    · rw [readLines_cons hlt] at h
      obtain ⟨r, -, hrest⟩ := Option.bind_eq_some_iff.1 h
      obtain ⟨atoms', hatoms', rfl⟩ := Option.map_eq_some_iff.1 hrest
      have hle := ih hatoms'
      have hone := length_toList_le r
      rw [length_append, length_cons]
      omega
    · rw [readLines_cons_long hlt] at h
      obtain rfl := Option.some.inj h
      exact Nat.succ_pos _

end Lines

/-! ### Records -/

variable {T}

variable {data : Str} {a : CausalAtom ι H} {lines : List Str} {atoms : List (CausalAtom ι H)}

omit [DecidableEq H] in
theorem Lawful.printable_marshal (hT : T.Lawful) (h : T.marshal a = .ok data) :
    Json.printable data = true := by
  obtain ⟨ha, physicalTime, expiresAt, -, -, rfl⟩ := marshal_eq_ok.1 h
  exact Json.printable_render _ (hT.wellFormed_record ha physicalTime expiresAt)

theorem not_mem_of_printable {s t : Str} (h : Json.printable s = true) (hts : t <+: s) {b : UInt8} (hb : b < 32) :
    b ∉ t := by
  intro hmem
  have hle := of_decide_eq_true (all_eq_true.1 h b (hts.subset hmem))
  exact absurd hb (UInt8.not_lt.2 hle)

omit [DecidableEq H] in
theorem readLine_eq_some_some (h : T.readLine data = some (some a)) :
    T.unmarshalJSON data = .ok a ∧ isZero a.hash = false := by
  unfold readLine at h
  split_ifs at h
  · cases h
  · split at h
    · rename_i b hb
      split_ifs at h with hzero
      · cases h
      · obtain rfl := Option.some.inj (Option.some.inj h)
        exact ⟨hb, Bool.eq_false_iff.2 hzero⟩
    · cases h
    · cases h

omit [DecidableEq H] in
theorem readLine_of_ok (h : T.unmarshalJSON data = .ok a) (hhash : isZero a.hash = false) :
    T.readLine data = some (some a) := by
  have hne : data ≠ [] := by
    rintro rfl
    cases h
  rw [readLine, if_neg hne, h]
  dsimp only
  rw [if_neg (Bool.eq_false_iff.1 hhash)]

theorem returnedValue_idem (v : Value ι) : returnedValue (returnedValue v) = returnedValue v := by
  cases v with
  | vString s => exact returnedValue_eq_self_iff.2 (.inr ⟨_, rfl, validString_coerceUtf8 s⟩)
  | vBytes b => exact returnedValue_eq_self_iff.2 (.inr ⟨_, rfl, validString_coerceUtf8 _⟩)
  | _ => rfl

omit [DecidableEq H] in
theorem returnedExpr_fixed {e e' : Expr ι H} (h : returnedExpr e = .ok e') :
    returnedExpr e' = .ok e' ∧ (T.expr e').depth ≤ 3 := by
  have htext : ∀ v : Value ι, IsText v → (T.expr (.eConst v)).depth ≤ 3 := by
    rintro v (rfl | ⟨s, rfl⟩)
    · exact (by decide : 2 ≤ 3)
    · exact (by decide : 2 ≤ 3)
  have hconst : ∀ v : Value ι, returnedExpr (.eConst (returnedValue v) : Expr ι H) =
      .ok (.eConst (returnedValue v)) := by
    intro v
    rw [returnedExpr, returnedValue_idem]
  have hnull : returnedExpr (.eConst .vNull : Expr ι H) = .ok (.eConst .vNull) := rfl
  unfold returnedExpr at h
  split at h
  · obtain rfl := Except.ok.inj h
    exact ⟨hconst _, htext _ (isText_returnedValue _)⟩
  · rename_i h' hs
    obtain rfl := Except.ok.inj h
    have hle := depth_hashes_le (h' :: hs)
    refine ⟨rfl, ?_⟩
    simp only [expr, header, cons_append, nil_append, Json.depth, Json.depth.depthMembers]
    omega
  · cases h
  · obtain rfl := Except.ok.inj h
    exact ⟨hnull, htext _ (.inl rfl)⟩

/-- What a record keeps of its atom: strings that are UTF-8, tombstones and composites, under a UTF-8 path. -/
structure Kept (a : CausalAtom ι H) : Prop where
  expr : returnedExpr a.expr = .ok a.expr
  nonce : a.nonce.length = 16
  path : validString a.path = true
  hash : isZero a.hash = false

theorem length_fitNonce (nonce : Str) : (fitNonce nonce).length = 16 := by
  rw [fitNonce, length_append, length_replicate]
  have hle := length_take_le 16 nonce
  omega

section

omit [DecidableEq H]

theorem Lawful.kept_of_read (hT : T.Lawful) {b : CausalAtom ι H}
    (hb : T.marshal b = .ok data) (hread : T.readLine data = some (some a)) : Kept a := by
  obtain ⟨hjson, hhash⟩ := readLine_eq_some_some hread
  have hback := hT.of_unmarshalJSON_eq_ok hb hjson
  cases hexpr : returnedExpr b.expr with
  | error failure =>
    rw [hexpr] at hback
    cases hback
  | ok e =>
    rw [hexpr] at hback
    obtain rfl := Except.ok.inj hback
    exact ⟨(returnedExpr_fixed (T := T) hexpr).1, length_fitNonce _, validString_coerceUtf8 _, hhash⟩

theorem Lawful.readLine_marshal_iff (hT : T.Lawful) (h : T.marshal a = .ok data) :
    T.readLine data = some (some a) ↔ Kept a := by
  refine ⟨hT.kept_of_read h, fun hkept => readLine_of_ok ?_ hkept.hash⟩
  have hsame : returnedAtom a a.expr = a := by
    rw [returnedAtom, fitNonce_of_length hkept.nonce, coerceUtf8_eq_self_iff.2 hkept.path]
  have hlt : (T.expr a.expr).depth < Json.maxNestingDepth :=
    lt_of_le_of_lt (returnedExpr_fixed hkept.expr).2 (by decide)
  rw [hT.unmarshalJSON_marshal h hlt, hkept.expr]
  exact congrArg Except.ok hsame

theorem Lawful.dropCR_marshal (hT : T.Lawful) (h : T.marshal a = .ok data) : dropCR data = data :=
  dropCR_of_not_mem (not_mem_of_printable (hT.printable_marshal h) prefix_rfl (by decide))

theorem exists_marshal_eq (h : T.marshal a = .ok data) : ∃ s, data = 123 :: 34 :: 72 :: s := by
  obtain ⟨-, physicalTime, expiresAt, -, -, rfl⟩ := marshal_eq_ok.1 h
  exact ⟨_, rfl⟩

theorem readLine_of_parse (h : Json.parse data = none) : T.readLine data = some none := by
  unfold readLine unmarshalJSON
  rw [h]
  split_ifs <;> rfl

theorem Lawful.readLine_torn (hT : T.Lawful) {torn : Str} (h : T.marshal a = .ok data)
    (htorn : torn <+: data) (hne : torn ≠ []) {x : Str} (hx : Json.Resumes x)
    (hcut : torn = data → x ≠ []) : T.readLine (torn ++ x) = some none := by
  obtain ⟨ha, physicalTime, expiresAt, -, -, rfl⟩ := marshal_eq_ok.1 h
  exact readLine_of_parse (Json.parse_torn hx (hT.wellFormed_record ha physicalTime expiresAt) htorn hne hcut)

theorem Lawful.resumes_marshal (hT : T.Lawful) (h : T.marshal a = .ok data) : Json.Resumes data := by
  obtain ⟨s, hs⟩ := exists_marshal_eq h
  obtain ⟨ha, physicalTime, expiresAt, -, -, rfl⟩ := marshal_eq_ok.1 h
  exact Json.resumes_render (hT.wellFormed_record ha physicalTime expiresAt) hs (by decide)

end

/-! ### Files of records -/

/-- The record of the atom is read back as it is. -/
def ReadsBack (T : RecordTexts ι H) (a : CausalAtom ι H) : Prop :=
  ∀ data, T.marshal a = .ok data → data.length < maxLineSize ∧ T.readLine data = some (some a)

/-- Nothing is read from the line: it does not fit into the buffer, or it is skipped. -/
def Ignored (T : RecordTexts ι H) (line : Str) : Prop :=
  line.length < maxLineSize → T.readLine line = some none

/-- What is read from a line was written for it. -/
def OnlyRecords (T : RecordTexts ι H) (lines : List Str) : Prop :=
  ∀ line ∈ lines, ∀ a, T.readLine (dropCR line) = some (some a) → ∃ b, T.marshal b = .ok line

def Marshalled (T : RecordTexts ι H) : List (CausalAtom ι H) → List Str → Prop :=
  List.Forall₂ fun a data => T.marshal a = .ok data

section

omit [DecidableEq H]

theorem marshalled_of_written (h : T.codec.Written atoms lines) : T.Marshalled atoms lines :=
  h.imp fun _ _ hline => (LogCodec.line_eq_ok.1 hline).1

theorem Marshalled.of_mem (h : T.Marshalled atoms lines) {line : Str} (hline : line ∈ lines) :
    ∃ a, T.marshal a = .ok line := by
  induction h with
  | nil => cases hline
  | @cons a data _ _ hdata _ ih =>
    rcases mem_cons.1 hline with rfl | hline
    · exact ⟨a, hdata⟩
    · exact ih hline

theorem readLine_of_full {line : Str} {rest : List Str}
    (h : T.readLines (line :: rest) = some (a :: atoms)) (hfull : rest.length ≤ atoms.length) :
    T.readLine (dropCR line) = some (some a) := by
  by_cases hlt : line.length < maxLineSize
  · rw [readLines_cons hlt] at h
    obtain ⟨r, hr, hrest⟩ := Option.bind_eq_some_iff.1 h
    obtain ⟨atoms', hatoms', heq⟩ := Option.map_eq_some_iff.1 hrest
    cases r with
    | none =>
      have hle := length_le_of_readLines hatoms'
      have hlength : atoms'.length = atoms.length + 1 := congrArg List.length heq
      omega
    | some b =>
      rw [hr, (List.cons.inj heq).1]
  · rw [readLines_cons_long hlt] at h
    cases Option.some.inj h

end

omit [DecidableEq H] in
/-- Records, and perhaps one line more: exactly the atoms of the records are read if each of them is read back and
nothing is read from the last line. An atom cannot be read from a later line in place of its own: it would be read
from its own line as well. -/
theorem Lawful.readLines_marshalled_iff (hT : T.Lawful) {last : List Str}
    (h : T.Marshalled atoms lines) (honly : T.OnlyRecords last) (hlast : last.length ≤ 1) :
    T.readLines (lines ++ last) = some atoms ↔ (∀ a ∈ atoms, T.ReadsBack a) ∧ T.readLines last = some [] := by
  induction h with
  | nil => simp
  | @cons a data atoms lines hmarshal htail ih =>
    rw [cons_append, forall_mem_cons]
    constructor
    · intro hread
      have hlt : data.length < maxLineSize := by
        by_contra hlong
        rw [readLines_cons_long hlong] at hread
        cases Option.some.inj hread
      rw [readLines_cons hlt, hT.dropCR_marshal hmarshal] at hread
      obtain ⟨r, hr, hrest⟩ := Option.bind_eq_some_iff.1 hread
      obtain ⟨atoms', hatoms', heq⟩ := Option.map_eq_some_iff.1 hrest
      cases r with
      | some b =>
        obtain ⟨rfl, rfl⟩ := List.cons.inj heq
        obtain ⟨hback, hnothing⟩ := ih.1 hatoms'
        refine ⟨⟨fun data' hdata' => ?_, hback⟩, hnothing⟩
        obtain rfl := Except.ok.inj (hmarshal.symm.trans hdata')
        exact ⟨hlt, hr⟩
      | none =>
        -- all other lines would have to give an atom, the first of them this one
        exfalso
        obtain rfl : atoms' = a :: atoms := heq
        have hlength : lines.length = atoms.length := (List.Forall₂.length_eq htail).symm
        cases hlines : lines ++ last with
        | nil =>
          rw [hlines] at hatoms'
          cases Option.some.inj hatoms'
        | cons line rest =>
          have hcount : lines.length + last.length = rest.length + 1 := by
            rw [← length_append, hlines, length_cons]
          rw [hlines] at hatoms'
          have hfirst := readLine_of_full hatoms' (by omega)
          obtain ⟨b, hb⟩ : ∃ b, T.marshal b = .ok line := by
            have hmem : line ∈ lines ++ last := hlines ▸ mem_cons_self
            rcases mem_append.1 hmem with hmem | hmem
            · exact Marshalled.of_mem htail hmem
            · exact honly line hmem a hfirst
          rw [hT.dropCR_marshal hb] at hfirst
          have hown := (hT.readLine_marshal_iff hmarshal).2 (hT.kept_of_read hb hfirst)
          rw [hr] at hown
          cases hown
    · rintro ⟨⟨hback, hrest⟩, hnothing⟩
      obtain ⟨hlt, hread⟩ := hback data hmarshal
      rw [readLines_cons hlt, hT.dropCR_marshal hmarshal, hread, ih.2 ⟨hrest, hnothing⟩]
      rfl

section

omit [DecidableEq H]

theorem appendAll_eq_ok : ∀ {atoms : List (CausalAtom ι H)} {file file' : Str},
    T.appendAll file atoms = .ok file' → ∃ lines, T.codec.Written atoms lines ∧ file' = file ++ unlines lines
  | [], file, file', h => by
    obtain rfl := Except.ok.inj h
    exact ⟨[], .nil, (append_nil file).symm⟩
  | a :: atoms, file, file', h => by
    rw [appendAll, foldlM_cons] at h
    cases hline : T.codec.line a with
    | error msg =>
      rw [append, hline] at h
      cases h
    | ok data =>
      rw [append, hline] at h
      obtain ⟨lines, hlines, rfl⟩ := appendAll_eq_ok
        (show T.appendAll (file ++ (data ++ [10])) atoms = .ok file' from h)
      refine ⟨data :: lines, .cons hline hlines, ?_⟩
      simp [unlines]

theorem Lawful.no_newline (hT : T.Lawful) (h : T.Marshalled atoms lines) :
    ∀ line ∈ lines, (10 : UInt8) ∉ line := by
  intro line hline
  obtain ⟨a, ha⟩ := h.of_mem hline
  exact not_mem_of_printable (hT.printable_marshal ha) prefix_rfl (by decide)

theorem Lawful.rawLines_unlines (hT : T.Lawful) (h : T.Marshalled atoms lines) :
    rawLines (unlines lines) = lines := by
  have hraw := Lib.rawLines_unlines (hT.no_newline h) []
  rw [append_nil] at hraw
  exact hraw.trans (append_nil lines)

theorem Lawful.readAll_unlines_iff (hT : T.Lawful) (h : T.Marshalled atoms lines) :
    T.readAll (unlines lines) = some atoms ↔ ∀ a ∈ atoms, T.ReadsBack a := by
  have hnone : T.OnlyRecords [] := forall_mem_nil _
  have hiff := hT.readLines_marshalled_iff h hnone (Nat.zero_le 1)
  rw [append_nil] at hiff
  rw [readAll_eq_readLines, hT.rawLines_unlines h, hiff]
  exact and_iff_left rfl

/-- **A torn tail.** Atoms are appended, a crash leaves a part of one more record, and more atoms are appended.
Exactly the appended atoms are read if and only if each of them is read back from its record, and either the crash
left nothing, or nothing was appended after it and what it left is ignored. -/
theorem torn_tail_iff (hT : T.Lawful) {before after : List (CausalAtom ι H)} {further : CausalAtom ι H}
    {file file' data torn : Str} (hbefore : T.appendAll [] before = .ok file)
    (hfurther : T.codec.line further = .ok data) (htorn : torn <+: data)
    (hafter : T.appendAll (file ++ torn) after = .ok file') : T.readAll file' = some (before ++ after) ↔
      (∀ a ∈ before ++ after, T.ReadsBack a) ∧ (torn = [] ∨ after = [] ∧ T.Ignored torn) := by
  have hmarshal : T.marshal further = .ok data := (LogCodec.line_eq_ok.1 hfurther).1
  have hprintable := hT.printable_marshal hmarshal
  obtain ⟨lines, hwritten, rfl⟩ := appendAll_eq_ok hbefore
  obtain ⟨later, hwritten', rfl⟩ := appendAll_eq_ok hafter
  have hlines := marshalled_of_written hwritten
  have hlater := marshalled_of_written hwritten'
  by_cases hempty : torn = []
  · -- nothing is left: the file has the records only
    subst hempty
    have hall : T.Marshalled (before ++ after) (lines ++ later) := rel_append hlines hlater
    have hfile : [] ++ unlines lines ++ [] ++ unlines later = unlines (lines ++ later) := by
      simp [unlines]
    rw [hfile, hT.readAll_unlines_iff hall]
    exact ⟨fun h => ⟨h, Or.inl rfl⟩, fun h => h.1⟩
  · rw [readAll_eq_readLines, nil_append, append_assoc, Lib.rawLines_unlines (hT.no_newline hlines)]
    have h10 : (10 : UInt8) ∉ torn := not_mem_of_printable hprintable htorn (by decide)
    have h13 : (13 : UInt8) ∉ torn := not_mem_of_printable hprintable htorn (by decide)
    cases hlater with
    | nil =>
      -- the torn line is the last one
      have hraw : rawLines (torn ++ unlines []) = [torn] := by
        rw [unlines, flatMap_nil, append_nil, rawLines_of_not_mem h10 hempty]
      have honly : T.OnlyRecords [torn] := by
        intro line hline a hread
        obtain rfl := mem_singleton.1 hline
        rw [dropCR_of_not_mem h13] at hread
        by_cases hwhole : line = data
        · exact ⟨further, hwhole ▸ hmarshal⟩
        · have hnothing := hT.readLine_torn hmarshal htorn hempty Json.resumes_nil fun h => absurd h hwhole
          rw [append_nil, hread] at hnothing
          cases hnothing
      have hignored : T.readLines [torn] = some [] ↔ T.Ignored torn := by
        by_cases hlt : torn.length < maxLineSize
        · rw [readLines_cons hlt, dropCR_of_not_mem h13, Ignored]
          cases hread : T.readLine torn with
          | none => simp [hlt]
          | some r => cases r <;> simp [readLines, hlt]
        · rw [readLines_cons_long hlt]
          exact iff_of_true rfl fun h => absurd h hlt
      rw [hraw, append_nil, hT.readLines_marshalled_iff hlines honly le_rfl, hignored]
      exact ⟨fun h => ⟨h.1, Or.inr ⟨rfl, h.2⟩⟩, fun h => ⟨h.1, (h.2.resolve_left hempty).2⟩⟩
    | @cons a line after later hnext hrest =>
      -- the next record is lost
      have hclean := hT.printable_marshal hnext
      have hmerged : Json.printable (torn ++ line) = true := by
        refine Json.printable_append ?_ hclean
        obtain ⟨t, rfl⟩ := htorn
        rw [Json.printable, all_append] at hprintable
        exact (Bool.and_eq_true_iff.1 hprintable).1
      have hraw : rawLines (torn ++ unlines (line :: later)) = (torn ++ line) :: later := by
        have hsplit : torn ++ unlines (line :: later) = (torn ++ line) ++ 10 :: (unlines later ++ []) := by
          simp [unlines]
        rw [hsplit, rawLines_append (not_mem_of_printable hmerged prefix_rfl (by decide)),
          Lib.rawLines_unlines (hT.no_newline hrest)]
        exact congrArg _ (append_nil later)
      have hnothing : T.readLine (torn ++ line) = some none := by
        refine hT.readLine_torn hmarshal htorn hempty (hT.resumes_marshal hnext) fun _ hnil => ?_
        obtain ⟨s, hs⟩ := exists_marshal_eq hnext
        rw [hs] at hnil
        cases hnil
      have hcr : dropCR (torn ++ line) = torn ++ line :=
        dropCR_of_not_mem (not_mem_of_printable hmerged prefix_rfl (by decide))
      rw [hraw]
      refine iff_of_false (fun hread => ?_) fun h => ?_
      · have hlt := length_lt_of_readLines (fun b hb => by rw [hcr, hnothing] at hb; cases hb) hread
        have hone := List.Forall₂.length_eq hlines
        have htwo := List.Forall₂.length_eq hrest
        rw [length_append, length_append, length_cons, length_cons] at hlt
        omega
      · cases (h.2.resolve_left hempty).1

theorem Lawful.readBack_iff (hT : T.Lawful) (h : T.codec.line a = .ok data) :
    T.ReadsBack a ↔ Kept a ∧ data.length ≠ maxLineSize := by
  obtain ⟨hdata, hle⟩ := LogCodec.line_eq_ok.1 h
  have hone : T.ReadsBack a ↔ data.length < maxLineSize ∧ T.readLine data = some (some a) := by
    refine ⟨fun hback => hback data hdata, fun hback data' hdata' => ?_⟩
    obtain rfl := Except.ok.inj (hdata.symm.trans hdata')
    exact hback
  rw [hone, hT.readLine_marshal_iff hdata, and_comm, lt_iff_le_and_ne]
  exact and_congr_right' (and_iff_right hle)

theorem Lawful.readAll_of_long (hT : T.Lawful) (h : T.marshal a = .ok data)
    (hlong : ¬ data.length < maxLineSize) (rest : Str) : T.readAll (data ++ [10] ++ rest) = some [] := by
  have hclean := not_mem_of_printable (hT.printable_marshal h) prefix_rfl (b := 10) (by decide)
  rw [readAll_eq_readLines, append_assoc, singleton_append, rawLines_append hclean,
    readLines_cons_long hlong]

/-- **What `Append` accepts is read**, all of it and in order, exactly if every record keeps its atom and none has
`maxLineSize` bytes: such a record is accepted, but with its line end it does not fit into the scanner's buffer. -/
theorem accepted_read_iff (hT : T.Lawful) {file : Str} (h : T.appendAll [] atoms = .ok file) :
    T.readAll file = some atoms ↔
      ∀ a ∈ atoms, Kept a ∧ ∀ data, T.codec.line a = .ok data → data.length ≠ maxLineSize := by
  obtain ⟨lines, hwritten, rfl⟩ := appendAll_eq_ok h
  rw [nil_append, hT.readAll_unlines_iff (marshalled_of_written hwritten)]
  refine forall₂_congr fun a ha => ?_
  obtain ⟨data, hdata⟩ := hwritten.line_of_mem ha
  rw [hT.readBack_iff hdata, hdata]
  simp

end

end RecordTexts

/-! ### A brace -/

def stringRecord : Str :=
  (Json.obj (plainTexts.record stringAtom (decimalInt 0) (decimalInt zeroTime))).render

theorem marshal_stringAtom : plainTexts.marshal stringAtom = .ok stringRecord := rfl

theorem length_stringRecord : stringRecord.length < maxLineSize := by
  decide +kernel

theorem line_stringAtom : plainTexts.codec.line stringAtom = .ok stringRecord :=
  LogCodec.line_eq_ok.2 ⟨marshal_stringAtom, length_stringRecord.le⟩

theorem kept_stringAtom : RecordTexts.Kept stringAtom :=
  ⟨by decide +kernel, by decide +kernel, by decide +kernel, by decide +kernel⟩

theorem readsBack_stringAtom : plainTexts.ReadsBack stringAtom :=
  (plainTexts_lawful.readBack_iff line_stringAtom).2 ⟨kept_stringAtom, length_stringRecord.ne⟩

theorem appendAll_singleton {a : CausalAtom Unit Digest} {data file : Str} (h : plainTexts.codec.line a = .ok data) :
    plainTexts.appendAll file [a] = .ok (file ++ (data ++ [10])) := by
  rw [RecordTexts.appendAll, foldlM_cons, RecordTexts.append, h]
  rfl

theorem torn_tail_iff_brace : plainTexts.readAll (stringRecord ++ [10] ++ [123]) = some [stringAtom] := by
  have htorn : [123] <+: stringRecord := by decide +kernel
  refine (RecordTexts.torn_tail_iff plainTexts_lawful (appendAll_singleton line_stringAtom) line_stringAtom htorn
    rfl).2 ⟨?_, Or.inr ⟨rfl, ?_⟩⟩
  · exact forall_mem_singleton.2 readsBack_stringAtom
  · exact fun _ => RecordTexts.readLine_of_parse (by decide +kernel)

/-- The atom that is appended after such a crash is lost, although `Append` returns no error. -/
theorem torn_append_lost : [123] <+: stringRecord ∧
    ∃ file, plainTexts.appendAll [123] [stringAtom] = .ok file ∧ plainTexts.readAll file = some [] := by
  refine ⟨by decide +kernel, 123 :: (stringRecord ++ [10]), appendAll_singleton line_stringAtom, ?_⟩
  have hnone : (plainTexts.readAll (123 :: (stringRecord ++ [10]))).map List.length = some 0 := by
    decide +kernel
  obtain ⟨atoms, hatoms, hlength⟩ := Option.map_eq_some_iff.1 hnone
  rw [hatoms, eq_nil_of_length_eq_zero hlength]

/-! ### A record of `maxLineSize` bytes -/

theorem accepted_read_iff_string : plainTexts.readAll ([] ++ (stringRecord ++ [10])) = some [stringAtom] := by
  refine (RecordTexts.accepted_read_iff plainTexts_lawful (appendAll_singleton line_stringAtom)).2 ?_
  refine forall_mem_singleton.2 ⟨kept_stringAtom, fun data hdata => ?_⟩
  obtain rfl := Except.ok.inj (line_stringAtom.symm.trans hdata)
  exact length_stringRecord.ne

theorem length_escaped_ks : ∀ n : ℕ, (Json.escaped (List.replicate n 107)).length = n
  | 0 => rfl
  | n + 1 => by
    have henc : encodingLength (107 :: List.replicate n 107) = some 1 := rfl
    have hcons : Json.escaped (107 :: List.replicate n 107) = 107 :: Json.escaped (List.replicate n 107) := by
      rw [Json.escaped, runes_of_encodingLength henc]
      rfl
    rw [replicate_succ, hcons, length_cons, length_escaped_ks n]

def atomAt (n : ℕ) : CausalAtom Unit Digest := { stringAtom with path := List.replicate (n + 1) 107 }

theorem length_atomAt (n : ℕ) : (Json.obj (plainTexts.record (atomAt n) (decimalInt 0)
    (decimalInt zeroTime))).render.length = stringRecord.length + n := by
  have hone : (Json.escaped stringAtom.path).length = 1 := by decide
  have hall : (Json.escaped (atomAt n).path).length = n + 1 := length_escaped_ks (n + 1)
  have hdomain : inferDomain (atomAt n).path = inferDomain stringAtom.path := rfl
  simp only [stringRecord, RecordTexts.record, Json.render, Json.render.renderMembers, Json.quote,
    length_append, length_cons, hone, hall, hdomain]
  simp only [atomAt, plainTexts]
  omega

/-- A record of exactly `maxLineSize` bytes is accepted; neither it nor what is appended after it is read. -/
theorem longest_record_hides_rest : ∃ (a : CausalAtom Unit Digest) (data file : Str),
    plainTexts.codec.line a = .ok data ∧ plainTexts.appendAll (data ++ [10]) [stringAtom] = .ok file ∧
      plainTexts.readAll file = some [] := by
  set n := maxLineSize - stringRecord.length
  have hdata := (length_atomAt n).trans (Nat.add_sub_cancel' length_stringRecord.le)
  have hmarshal : plainTexts.marshal (atomAt n) =
      .ok (Json.obj (plainTexts.record (atomAt n) (decimalInt 0) (decimalInt zeroTime))).render := rfl
  exact ⟨atomAt n, _, _, LogCodec.line_eq_ok.2 ⟨hmarshal, hdata.le⟩, appendAll_singleton line_stringAtom,
    plainTexts_lawful.readAll_of_long hmarshal hdata.not_lt _⟩

end Wavicle.Storage
