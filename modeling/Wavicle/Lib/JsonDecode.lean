import Wavicle.Lib.JsonTorn

/-! # Decoding JSON

How `json.Unmarshal` fills the fields of a struct.

* `field`: the members that have the name of a field, up to case, one after another; `field_coerce`.
* `decodeNat`, `decodeByte`, `decodeText`, `decodeBytes`: what a value gives for the type of the field. -/

namespace Wavicle.Lib.Json

open List

/-! ### Members -/

/-- `foldName`. Besides the letters themselves, the long s and the Kelvin sign fold to letters. -/
def foldName (s : Str) : Str :=
  replaceAll (replaceAll (s.map upperByte) [0xC5, 0xBF] (str "S")) [0xE2, 0x84, 0xAA] (str "K")

example : foldName (str "Path") = foldName (str "pATH") := by decide

def members (name : Str) (ms : List (Str × Json)) : List Json :=
  (ms.filter fun m => foldName m.1 = foldName name).map (·.2)

def field {α : Type} (decode : α → Json → Option α) (zero : α) (name : Str) (ms : List (Str × Json)) : Option α :=
  (members name ms).foldlM decode zero

section Members

variable {ms : List (Str × Json)} {name : Str}

/-- Different names are different also when they are folded, and they are UTF-8. -/
def Distinct (ms : List (Str × Json)) : Prop :=
  (ms.map fun m => foldName m.1).Nodup ∧ ∀ m ∈ ms, validString m.1 = true

theorem distinct_of_names (names : List Str) (h : ms.map (·.1) = names)
    (hnames : (names.map foldName).Nodup ∧ ∀ k ∈ names, validString k = true) : Distinct ms := by
  subst h
  refine ⟨?_, fun m hm => hnames.2 m.1 (mem_map_of_mem hm)⟩
  have hnd := hnames.1
  rw [map_map] at hnd
  exact hnd

def Absent (name : Str) (ms : List (Str × Json)) : Prop := foldName name ∉ ms.map fun m => foldName m.1

theorem absent_of_names (names : List Str) (h : ms.map (·.1) = names)
    (habsent : foldName name ∉ names.map foldName) : Absent name ms := by
  subst h
  rw [map_map] at habsent
  exact habsent

theorem coerceMembers_eq_map (h : ∀ m ∈ ms, validString m.1 = true) :
    coerce.coerceMembers ms = ms.map fun m => (m.1, m.2.coerce) := by
  induction ms with
  | nil => rfl
  | cons m ms ih =>
    obtain ⟨k, j⟩ := m
    rw [coerce.coerceMembers, coerceUtf8_eq_self_iff.2 (h _ (.head _)),
      ih fun m hm => h m (.tail _ hm)]
    rfl

theorem members_eq_nil (h : Absent name ms) : members name ms = [] := by
  have hfilter : (ms.filter fun m => foldName m.1 = foldName name) = [] := by
    refine filter_eq_nil_iff.2 fun m hm heq => h ?_
    exact mem_map.2 ⟨m, hm, of_decide_eq_true heq⟩
  rw [members, hfilter, map_nil]

theorem members_eq_singleton (hnd : (ms.map fun m => foldName m.1).Nodup) {j : Json} (h : (name, j) ∈ ms) :
    members name ms = [j] := by
  induction ms with
  | nil => cases h
  | cons m ms ih =>
    rw [map_cons, nodup_cons] at hnd
    rcases mem_cons.1 h with rfl | h
    · have htail : members name ms = [] := members_eq_nil hnd.1
      rw [members, filter_cons_of_pos (by simp), map_cons]
      exact congrArg (j :: ·) htail
    · have hne : foldName m.1 ≠ foldName name := fun heq => hnd.1 (heq ▸ mem_map_of_mem h)
      rw [members, filter_cons_of_neg (by simpa using hne)]
      exact ih hnd.2 h

theorem members_coerce (hms : Distinct ms) {j : Json} (h : (name, j) ∈ ms) :
    members name (coerce.coerceMembers ms) = [j.coerce] := by
  rw [coerceMembers_eq_map hms.2]
  refine members_eq_singleton ?_ (mem_map.2 ⟨_, h, rfl⟩)
  rw [map_map]
  exact hms.1

theorem members_coerce_absent (hms : Distinct ms) (h : Absent name ms) :
    members name (coerce.coerceMembers ms) = [] := by
  rw [coerceMembers_eq_map hms.2]
  refine members_eq_nil ?_
  rw [Absent, map_map]
  exact h

theorem field_coerce (hms : Distinct ms) {j : Json} (h : (name, j) ∈ ms) {α : Type}
    (decode : α → Json → Option α) (zero : α) :
    field decode zero name (coerce.coerceMembers ms) = decode zero j.coerce := by
  rw [field, members_coerce hms h, foldlM_cons]
  cases decode zero j.coerce <;> rfl

theorem field_coerce_absent (hms : Distinct ms) (h : Absent name ms) {α : Type}
    (decode : α → Json → Option α) (zero : α) :
    field decode zero name (coerce.coerceMembers ms) = some zero := by
  rw [field, members_coerce_absent hms h]
  rfl

end Members

/-! ### Numbers, bytes and texts -/

def decodeNat (old : ℕ) : Json → Option ℕ
  | null => some old
  | num token => digits token
  | _ => none

def decodeByte (old : UInt8) : Json → Option UInt8
  | null => some old
  | num token => (digits token).bind fun n => if n < 256 then some n.toUInt8 else none
  | _ => none

def decodeText (old : Str) : Json → Option Str
  | null => some old
  | text s => some s
  | _ => none

/-- A `[n]byte`. Elements beyond the last one are skipped, and missing ones are zero. -/
def decodeBytes (n : ℕ) (old : Str) : Json → Option Str
  | null => some old
  | arr js => ((js.take n).mapM (decodeByte 0)).map fun bs => bs ++ List.replicate (n - bs.length) 0
  | _ => none

def bytes (s : Str) : Json := arr (s.map fun b => num (decimal b.toNat))

/-- All numbers of a tree are read as floats, if they are read into an `interface{}`. -/
def numbersFit (fits : Str → Bool) : Json → Bool
  | num token => fits token
  | arr js => fitElems js
  | obj ms => fitMembers ms
  | _ => true
where
  fitElems : List Json → Bool
    | [] => true
    | j :: js => j.numbersFit fits && fitElems js
  fitMembers : List (Str × Json) → Bool
    | [] => true
    | (_, j) :: ms => j.numbersFit fits && fitMembers ms

theorem decodeByte_decimal (old b : UInt8) : decodeByte old (num (decimal b.toNat)) = some b := by
  rw [decodeByte, digits_decimal, Option.bind_some, if_pos b.toNat_lt]
  exact congrArg some (UInt8.ofNat_toNat (x := b))

theorem coerceElems_eq_map (js : List Json) : coerce.coerceElems js = js.map coerce := by
  induction js with
  | nil => rfl
  | cons j js ih => rw [coerce.coerceElems, ih, map_cons]

theorem coerce_bytes (s : Str) : (bytes s).coerce = bytes s := by
  rw [bytes, coerce, coerceElems_eq_map, map_map]
  rfl

theorem mapM_decode {α : Type} {write : α → Json} {decode : Json → Option α}
    (h : ∀ x, decode (write x) = some x) (l : List α) : (l.map write).mapM decode = some l := by
  induction l with
  | nil => rfl
  | cons x l ih =>
    rw [map_cons, mapM_cons, h, ih]
    rfl

theorem decodeBytes_bytes (n : ℕ) (old s : Str) :
    decodeBytes n old (bytes s) = some (s.take n ++ List.replicate (n - (s.take n).length) 0) := by
  rw [bytes, decodeBytes, ← map_take, mapM_decode (decodeByte_decimal 0)]
  rfl

theorem decodeBytes_bytes_of_length {n : ℕ} {s : Str} (h : s.length = n) (old : Str) :
    decodeBytes n old (bytes s) = some s := by
  rw [decodeBytes_bytes, take_of_length_le h.le, h, Nat.sub_self, replicate_zero, append_nil]

mutual

theorem numbersFit_coerce (fits : Str → Bool) : ∀ j : Json, j.coerce.numbersFit fits = j.numbersFit fits
  | null => rfl
  | bool _ => rfl
  | num _ => rfl
  | text _ => rfl
  | arr js => fitElems_coerce fits js
  | obj ms => fitMembers_coerce fits ms

theorem fitElems_coerce (fits : Str → Bool) : ∀ js : List Json,
    numbersFit.fitElems fits (coerce.coerceElems js) = numbersFit.fitElems fits js
  | [] => rfl
  | j :: js => congrArg₂ (· && ·) (numbersFit_coerce fits j) (fitElems_coerce fits js)

theorem fitMembers_coerce (fits : Str → Bool) : ∀ ms : List (Str × Json),
    numbersFit.fitMembers fits (coerce.coerceMembers ms) = numbersFit.fitMembers fits ms
  | [] => rfl
  | (_, j) :: ms => congrArg₂ (· && ·) (numbersFit_coerce fits j) (fitMembers_coerce fits ms)

end

/-! ### Well-formed and shallow trees -/

theorem wellFormedElems_iff {js : List Json} : WellFormed.wellFormedElems js ↔ ∀ j ∈ js, j.WellFormed := by
  induction js with
  | nil => exact ⟨fun _ => forall_mem_nil _, fun _ => trivial⟩
  | cons j js ih => rw [WellFormed.wellFormedElems, ih, forall_mem_cons]

theorem depthElems_le_iff {js : List Json} {n : ℕ} : depth.depthElems js ≤ n ↔ ∀ j ∈ js, j.depth ≤ n := by
  induction js with
  | nil => exact ⟨fun _ => forall_mem_nil _, fun _ => Nat.zero_le _⟩
  | cons j js ih => rw [depth.depthElems, max_le_iff, ih, forall_mem_cons]

theorem wellFormed_bytes (s : Str) : (bytes s).WellFormed := by
  refine wellFormedElems_iff.2 fun j hj => ?_
  obtain ⟨b, -, rfl⟩ := mem_map.1 hj
  exact isNumber_decimal b.toNat

theorem depth_bytes_le (s : Str) : (bytes s).depth ≤ 1 := by
  refine Nat.succ_le_succ (depthElems_le_iff.2 fun j hj => ?_)
  obtain ⟨b, -, rfl⟩ := mem_map.1 hj
  exact le_rfl

theorem parse_render_eq {j : Json} (hj : j.WellFormed) {j' : Json} (h : parse j.render = some j') :
    j' = j.coerce := by
  have hstops : Stops [] := fun _ _ h => by cases h
  obtain ⟨r, hr, hend⟩ := Option.bind_eq_some_iff.1 h
  rw [← append_nil j.render] at hr
  rw [parseValue_render_eq hj hstops hr] at hend
  exact (Option.some.inj hend).symm

end Wavicle.Lib.Json
