import Wavicle.Lib.JsonDecode
import Wavicle.Lib.Rfc3339
import Wavicle.Migrate.Lock

/-! # The text of a lock

What `writeLock` puts into a lock file and `readLock` takes from it: the JSON of a `pidLock`, with its two times
in RFC 3339.

* `lockJson`: the format of the code.
* `lockJson_lawful`: it has what is asked of a format. A record is read back from its whole text, a text that is
  cut off is refused, and a time is read back up to its second. -/

namespace Wavicle.Migrate

open Lib Wavicle.Core List Json

/-- The members of a `pidLock`. -/
def PidLock.members (l : PidLock) : List (Str × Json) :=
  [(str "pid", num (decimalInt l.pid)), (str "started_at", text l.startedAt), (str "heartbeat", text l.heartbeat)]

/-- A number into an `int`, here of any size. -/
def decodePid (old : ℤ) : Json → Option ℤ
  | null => some old
  | num (45 :: ds) => (digits ds).map fun n : ℕ => -(n : ℤ)
  | num ds => (digits ds).map fun n : ℕ => (n : ℤ)
  | _ => none

/-- The fields of a `pidLock` that has been read as a tree; `null` leaves it as it is. -/
def decodeLock : Json → Option PidLock
  | null => some ⟨0, [], []⟩
  | obj ms => (field decodePid 0 (str "pid") ms).bind fun pid =>
      (field decodeText [] (str "started_at") ms).bind fun startedAt =>
        (field decodeText [] (str "heartbeat") ms).map fun heartbeat => ⟨pid, startedAt, heartbeat⟩
  | _ => none

/-- **The format of the code.** -/
def lockJson : LockFormat where
  marshal l := (obj l.members).render
  unmarshal s := (Json.parse s).bind decodeLock
  format t := Rfc3339.format (t / second)
  parse s := (Rfc3339.parse s).map fun n => n * second

theorem decodePid_decimalInt (old n : ℤ) : decodePid old (num (decimalInt n)) = some n := by
  rcases lt_or_ge n 0 with hneg | hpos
  · have htoken : decimalInt n = 45 :: decimal n.natAbs := by rw [decimalInt, if_pos hneg]; rfl
    rw [htoken, decodePid, digits_decimal, Option.map_some]
    congr 1
    omega
  · have htoken : decimalInt n = decimal n.natAbs := by rw [decimalInt, if_neg (by omega)]; rfl
    obtain ⟨b, ds, hb⟩ := exists_cons_of_ne_nil (decimal_ne_nil n.natAbs)
    have hminus : b ≠ 45 := by
      rintro rfl
      exact absurd (isDigit_of_mem_decimal 45 (hb ▸ mem_cons_self)) (by decide)
    rw [htoken, hb, decodePid, ← hb, digits_decimal, Option.map_some]
    · congr 1
      omega
    · intro ds' h
      exact hminus (cons.inj h).1

variable (l : PidLock)

theorem wellFormed_members : (obj l.members).WellFormed := ⟨isNumber_decimalInt l.pid, trivial, trivial, trivial⟩

theorem depth_members : (obj l.members).depth ≤ maxNestingDepth := show 1 ≤ maxNestingDepth by decide

theorem distinct_members : Distinct l.members :=
  distinct_of_names [str "pid", str "started_at", str "heartbeat"] rfl (by decide +kernel)

/-- A record whose times are UTF-8 is read from its text. -/
theorem decodeLock_members (hstarted : validString l.startedAt = true)
    (hheartbeat : validString l.heartbeat = true) :
    decodeLock (obj l.members).coerce = some l := by
  have hd := distinct_members l
  rw [coerce, decodeLock, field_coerce hd (j := num (decimalInt l.pid)) (by simp [PidLock.members]), coerce,
    decodePid_decimalInt, field_coerce hd (j := text l.startedAt) (by simp [PidLock.members]), coerce,
    coerceUtf8_eq_self_iff.2 hstarted, field_coerce hd (j := text l.heartbeat) (by simp [PidLock.members]), coerce,
    coerceUtf8_eq_self_iff.2 hheartbeat]
  rfl

/-- A text that ends before its last brace is no record. -/
theorem unmarshal_take_members {n : ℕ} (hn : n < (lockJson.marshal l).length) :
    lockJson.unmarshal ((lockJson.marshal l).take n) = none := by
  rcases Nat.eq_zero_or_pos n with rfl | hpos
  · rw [take_zero]
    decide +kernel
  · have hne : (lockJson.marshal l).take n ≠ [] := by
      rw [Ne, take_eq_nil_iff]
      rintro (rfl | hnil)
      · exact absurd hpos (lt_irrefl 0)
      · rw [hnil] at hn
        exact absurd hn (Nat.not_lt_zero n)
    have hcut : (lockJson.marshal l).take n ≠ lockJson.marshal l := fun h => by
      have hlen := congrArg length h
      rw [length_take] at hlen
      omega
    have hpart : (lockJson.marshal l).take n <+: (obj l.members).render := take_prefix n _
    have htorn := parse_torn resumes_nil (wellFormed_members l) hpart hne fun h => absurd h hcut
    rw [append_nil] at htorn
    exact congrArg (fun j => j.bind decodeLock) htorn

theorem validString_format (t : Time) : validString (lockJson.format t) = true :=
  validString_of_isASCII (Rfc3339.isASCII_format _)

theorem lockJson_lawful : lockJson.Lawful where
  parse_format t := by
    have hbefore := t.before
    have hdiv : 0 ≤ t.time / second ∧ t.time / second < 253402300800 :=
      ⟨Int.ediv_nonneg t.nonneg (by decide), Int.ediv_lt_of_lt_mul (by decide) t.before⟩
    simp only [lockJson, Rfc3339.parse_format hdiv.1 hdiv.2, Option.map_some]
    rw [Int.emod_def, sub_sub_cancel, mul_comm]
  unmarshal_marshal pid started heartbeat := by
    simp only [lockJson]
    rw [parse_render (wellFormed_members _) (depth_members _), Option.bind_some]
    exact decodeLock_members _ (validString_format _) (validString_format _)
  unmarshal_take pid started heartbeat n hn := by
    exact unmarshal_take_members _ hn
  unmarshal_nil := by decide +kernel

end Wavicle.Migrate
