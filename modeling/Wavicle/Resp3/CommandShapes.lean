import Wavicle.Lib.Conforms
import Wavicle.Lib.Decimal
import Wavicle.Resp3.HandleCommand

/-! # What the write commands do

One lemma for each command that changes the value of one key: all its operations concern that key, what it
appends is a constant, and once it has appended something its reply is no error. -/

namespace Wavicle.Resp3

open Lib Wavicle.Core Storage Prog

variable {H : Type}

/-- The operations that a command on `key` makes. -/
def OnKey (key : Str) : ServerOp H → Prop
  | .store ⟨.given, .appendAtom (.eConst _) path _ _⟩ => path = key
  | .store ⟨.given, .getCurrent path⟩ => path = key
  | .store ⟨.given, .frontierPaths⟩ => True
  | .loadType k | .storeType k _ | .deleteType k => k = key
  | .newEConst _ | .newMap | .newArray _ | .change _ | .now | .staleRefused => True
  | _ => False

/-- What is appended has no deadline. -/
def Permanent : ServerOp H → Prop
  | .store ⟨_, .appendAtom _ _ _ expiresAt⟩ => expiresAt = zeroTime
  | _ => True

/-- An operation on `key` that sets no deadline. -/
abbrev Updating (key : Str) (op : ServerOp H) : Prop := OnKey key op ∧ Permanent op

def isAppend : ServerOp H → Bool
  | .store ⟨_, .appendAtom _ _ _ _⟩ => true
  | _ => false

/-- An operation on `key` that appends nothing. -/
abbrev Quiet (key : Str) (op : ServerOp H) : Prop := Updating key op ∧ isAppend op = false

/-- An operation that looks at `key`, and may note its type. -/
def Peeks (key : Str) : ServerOp H → Prop
  | .store ⟨.given, .getCurrent path⟩ => path = key
  | .store ⟨.given, .frontierPaths⟩ | .now => True
  | .loadType k | .storeType k _ => k = key
  | _ => False

/-! ### Replies -/

/-- A reply that begins like an integer, a simple string, a bulk string or an array. -/
def Success (reply : Str) : Prop := ∃ b ∈ [58, 43, 36, 42], ∃ rest, reply = b :: rest

theorem success_integerReply (n : ℤ) : Success (integerReply n) := ⟨58, by decide, _, rfl⟩

theorem success_formatBulkString (s : Str) : Success (formatBulkString s) := ⟨36, by decide, _, rfl⟩

theorem success_arrayReply (l : List Str) : Success (arrayReply l) := ⟨42, by decide, _, rfl⟩

theorem success_okReply : Success okReply := ⟨43, by decide, _, rfl⟩

theorem success_nullReply : Success nullReply := ⟨36, by decide, _, rfl⟩

theorem success_elim (o : Option Str) : Success (o.elim nullReply formatBulkString) := by
  cases o with
  | none => exact success_nullReply
  | some s => exact success_formatBulkString s

theorem not_success {r : Str} {b : UInt8} (h : r.head? = some b) (hb : b ∉ [58, 43, 36, 42]) : ¬ Success r := by
  rintro ⟨b', hb', rest, rfl⟩
  exact hb (Option.some.inj h ▸ hb')

theorem not_success_wrongTypeResp : ¬ Success wrongTypeResp := not_success (b := 45) (by decide) (by decide)

theorem Success.ne_wrongTypeResp {r : Str} (h : Success r) : r ≠ wrongTypeResp :=
  fun heq => not_success_wrongTypeResp (heq ▸ h)

theorem formatBulkString_append_inj {s t x y : Str}
    (h : formatBulkString s ++ x = formatBulkString t ++ y) : s = t ∧ x = y := by
  unfold formatBulkString at h
  simp only [List.append_assoc] at h
  obtain ⟨hlen, hrest⟩ := decimal_line_inj (List.append_cancel_left h)
  have hbody : s ++ (str "\r\n" ++ x) = t ++ (str "\r\n" ++ y) := (List.cons.inj hrest).2
  obtain ⟨hst, hxy⟩ := List.append_inj hbody hlen
  exact ⟨hst, List.append_cancel_left hxy⟩

theorem flatMap_formatBulkString_inj : ∀ {l m : List Str},
    l.flatMap formatBulkString = m.flatMap formatBulkString → l = m
  | [], [], _ => rfl
  | s :: l, t :: m, h => by
    obtain ⟨rfl, hrest⟩ := formatBulkString_append_inj h
    rw [flatMap_formatBulkString_inj hrest]
  | [], _ :: _, h | _ :: _, [], h => by cases h

theorem arrayReply_injective {l m : List Str} (h : arrayReply l = arrayReply m) : l = m := by
  unfold arrayReply arrayHeader at h
  simp only [List.append_assoc] at h
  obtain ⟨-, hrest⟩ := decimal_line_inj (List.append_cancel_left h)
  exact flatMap_formatBulkString_inj (List.cons.inj hrest).2

/-! ### Arguments in pairs -/

theorem pairs_flatMap : ∀ (first : Str × Str) (more : List (Str × Str)),
    pairs ((first :: more).flatMap fun p => [p.1, p.2]) = some (first :: more)
  | (a, b), [] => rfl
  | (a, b), next :: more => by
    have hrest := pairs_flatMap next more
    obtain ⟨c, d⟩ := next
    change (pairs (((c, d) :: more).flatMap fun p => [p.1, p.2])).map ((a, b) :: ·) = _
    rw [hrest]
    rfl

theorem eq_flatMap_of_pairs : ∀ {l : List Str} {ps : List (Str × Str)}, pairs l = some ps →
    l = ps.flatMap fun p => [p.1, p.2]
  | [a, b], _, h => by
    cases h
    rfl
  | a :: b :: c :: l, _, h => by
    obtain ⟨ps, hps, rfl⟩ := Option.map_eq_some_iff.1 h
    rw [eq_flatMap_of_pairs hps]
    rfl

/-! ### Reading -/

section Reading

variable (key : Str)

theorem Peeks.quiet {key : Str} : ∀ {op : ServerOp H}, Peeks key op → Quiet key op
  | .store ⟨.given, .getCurrent _⟩, h | .loadType _, h | .storeType _ _, h => ⟨⟨h, trivial⟩, rfl⟩
  | .store ⟨.given, .frontierPaths⟩, _ | .now, _ => ⟨⟨trivial, trivial⟩, rfl⟩

theorem peeks_liveAtom : (liveAtom key : ServerProg H _).CallsOnly (Peeks key) :=
  callsOnly_bind (fun _ => callsOnly_pure _ _) (callsOnly_ask rfl)

theorem peeks_curValue : (curValue key : ServerProg H _).CallsOnly (Peeks key) :=
  callsOnly_bind (fun _ => callsOnly_pure _ _) (peeks_liveAtom key)

theorem peeks_keyTypeOf : (keyTypeOf key : ServerProg H _).CallsOnly (Peeks key) := by
  have hset : ∀ t, (setKeyType key t : ServerProg H _).CallsOnly (Peeks key) := fun _ => callsOnly_ask rfl
  refine callsOnly_bind (fun t => ?_) (callsOnly_ask rfl)
  cases t with
  | some t => exact callsOnly_pure _ _
  | none =>
    refine callsOnly_bind (fun v => ?_) (peeks_curValue key)
    cases v with
    | some v => exact callsOnly_bind (fun _ => callsOnly_pure _ _) (hset _)
    | none =>
      refine callsOnly_bind (fun paths => ?_) (callsOnly_ask trivial)
      dsimp only
      split_ifs
      · exact callsOnly_bind (fun _ => callsOnly_pure _ _) (hset _)
      · exact callsOnly_pure _ _

theorem peeks_assertKeyType (want : KeyType) :
    (assertKeyType key want : ServerProg H _).CallsOnly (Peeks key) :=
  callsOnly_bind (fun _ => callsOnly_pure _ _) (peeks_keyTypeOf key)

theorem peeks_assertKeyTypeAgain (want : KeyType) :
    (assertKeyTypeAgain key want : ServerProg H _).CallsOnly (Peeks key) := by
  refine callsOnly_bind (fun ok => ?_) (peeks_assertKeyType key want)
  split_ifs
  · exact callsOnly_pure _ _
  · exact callsOnly_bind (fun _ => callsOnly_pure _ _) (peeks_keyTypeOf key)

theorem peeks_streamID (id : Str) : (streamID id : ServerProg H _).CallsOnly (Peeks key) := by
  unfold streamID
  split_ifs
  · exact callsOnly_bind (fun _ => callsOnly_pure _ _) (callsOnly_ask trivial)
  · exact callsOnly_pure _ _

theorem quiet_of_peeks {α : Type} {p : ServerProg H α} (h : p.CallsOnly (Peeks key)) :
    p.CallsOnly (Quiet key) := h.mono fun _ => Peeks.quiet

end Reading

/-! ### Writing -/

theorem updating_ask {key : Str} (op : ServerOp H) (h : Updating key op) :
    (ServerOp.ask op).CallsOnly (Updating key) := callsOnly_ask h

theorem updating_putValue (key : Str) (v : Value Ref) :
    (putValue key v : ServerProg H _).CallsOnly (Updating key) := by
  refine callsOnly_bind (fun v => ?_) (updating_ask (.newEConst v) ⟨trivial, trivial⟩)
  exact updating_ask _ ⟨rfl, rfl⟩

theorem updating_putTombstone (key : Str) : (putTombstone key : ServerProg H _).CallsOnly (Updating key) :=
  updating_ask _ ⟨rfl, rfl⟩

theorem updating_delKeyType (key : Str) : (delKeyType key : ServerProg H _).CallsOnly (Updating key) :=
  updating_ask _ ⟨rfl, trivial⟩

theorem updating_setKeyType (key : Str) (t : KeyType) :
    (setKeyType key t : ServerProg H _).CallsOnly (Updating key) :=
  updating_ask _ ⟨rfl, trivial⟩

theorem updating_storeText (key text : Str) :
    (storeText key text : ServerProg H _).CallsOnly (Updating key) :=
  callsOnly_bind (fun _ => updating_setKeyType key _) (updating_putValue key _)

/-- A command with operations in `P`, and its reply once it has appended something. -/
abbrev Conforms (P : ServerOp H → Prop) (p : ServerProg H Str) (b : Bool) : Prop :=
  Prog.Conforms P isAppend Success p b

section Rules

variable {key : Str}

theorem conforms_putValue_bind {v : Value Ref} {f : Except Str H → ServerProg H Str}
    (hf : ∀ r, Conforms (Updating key) (f r) true) : Conforms (Updating key) (putValue key v >>= f) true :=
  .bind_marked hf (updating_putValue key v)

theorem conforms_setKeyType_bind {t : KeyType} {f : Unit → ServerProg H Str}
    (hf : ∀ r, Conforms (Updating key) (f r) true) : Conforms (Updating key) (setKeyType key t >>= f) true :=
  .bind_marked hf (updating_setKeyType key t)

theorem conforms_tombstone_bind {reply : Str} (h : Success reply) :
    Conforms (H := H) (Updating key) (do let _ ← putTombstone key; delKeyType key; pure reply) true :=
  .bind_marked (fun _ => .bind_marked (fun _ => conforms_pure_of h true)
    (updating_delKeyType key)) (updating_putTombstone key)

theorem conforms_curValue_bind {f : Option (Option (Value Ref)) → ServerProg H Str} {b : Bool}
    (hf : ∀ v, Conforms (Updating key) (f v) b) : Conforms (Updating key) (curValue key >>= f) b :=
  .bind hf (quiet_of_peeks key (peeks_curValue key))

theorem conforms_assert {want : KeyType} {p : ServerProg H Str} (hp : Conforms (Updating key) p false) :
    Conforms (Updating key) (do if ← assertKeyType key want then p else pure wrongTypeResp) false :=
  .bind (fun _ => .ite hp (conforms_pure _))
    (quiet_of_peeks key (peeks_assertKeyType key want))

end Rules

/-! ### Counters and strings -/

theorem conforms_storeCounter (key : Str) (n : Int64) :
    Conforms (H := H) (Updating key) (storeCounter key n) true :=
  .bind_marked (fun _ => conforms_pure_of (success_integerReply _) true) (updating_storeText key _)

theorem conforms_counter [Floats] [Spaces] (cmd : Counter) (key : Str) (rest : List Str) :
    Conforms (H := H) (Updating key) (counter cmd (key :: rest)) false := by
  unfold counter
  dsimp only
  cases cmd.delta rest with
  | none => exact conforms_pure _
  | some delta =>
    refine conforms_assert (conforms_curValue_bind fun v => ?_)
    cases v with
    | none => exact (conforms_storeCounter key _).of_marked false
    | some v =>
      dsimp only
      split
      · exact conforms_pure _
      · split
        · exact conforms_pure _
        · exact (conforms_storeCounter key _).of_marked false

theorem conforms_storeAppended (key text : Str) :
    Conforms (H := H) (Updating key) (storeAppended key text) true :=
  .bind_marked (fun _ => conforms_pure_of (success_integerReply _) true) (updating_storeText key _)

theorem conforms_append [Floats] (key : Str) (rest : List Str) :
    Conforms (H := H) (Updating key) (append (key :: rest)) false := by
  cases rest with
  | nil => exact conforms_pure _
  | cons text rest =>
    refine conforms_assert (conforms_curValue_bind fun v => ?_)
    cases v with
    | none => exact (conforms_storeAppended key _).of_marked false
    | some v =>
      dsimp only
      split
      · exact conforms_pure _
      · exact (conforms_storeAppended key _).of_marked false

theorem conforms_getset [Floats] (key : Str) (rest : List Str) :
    Conforms (H := H) (Updating key) (getset (key :: rest)) false := by
  cases rest with
  | nil => exact conforms_pure _
  | cons text rest =>
    refine conforms_assert (conforms_curValue_bind fun v => ?_)
    refine Prog.Conforms.of_marked ?_ false
    exact .bind_marked (fun _ => conforms_pure_of (success_elim _) true) (updating_storeText key _)

theorem conforms_setnx (key : Str) (rest : List Str) :
    Conforms (H := H) (Updating key) (setnx (key :: rest)) false := by
  cases rest with
  | nil => exact conforms_pure _
  | cons text rest =>
    refine conforms_curValue_bind fun v => ?_
    cases v with
    | some v => exact conforms_pure _
    | none =>
      refine Prog.Conforms.of_marked ?_ false
      exact .bind_marked (fun _ => conforms_pure_of (success_integerReply _) true)
        (updating_storeText key _)

theorem onKey_ask {key : Str} (op : ServerOp H) (h : OnKey key op) : (ServerOp.ask op).CallsOnly (OnKey key) :=
  callsOnly_ask h

theorem conforms_setex (unit : Int64) (key : Str) (rest : List Str) :
    Conforms (H := H) (OnKey key) (setex unit (key :: rest)) false := by
  unfold setex
  split
  · rename_i key' n text _ heq
    obtain ⟨rfl, -⟩ := List.cons.inj heq
    split
    · exact conforms_pure _
    · refine .ite (conforms_pure _) (Prog.Conforms.of_marked ?_ false)
      refine .bind_marked (fun now => ?_) (onKey_ask .now trivial)
      refine .bind_marked (fun v => ?_) (onKey_ask (.newEConst _) trivial)
      refine .bind_marked (fun _ => ?_) (onKey_ask _ rfl)
      exact .bind_marked (fun _ => conforms_pure_of success_okReply true) (onKey_ask _ rfl)
  · exact conforms_pure _

/-! ### Lists -/

section Lists

variable (key : Str)

theorem quiet_ask {key : Str} (op : ServerOp H) (h : Quiet key op) :
    (ServerOp.ask op).CallsOnly (Quiet key) := callsOnly_ask h

theorem quiet_appendElem [Runtime] (arr : Slice) (v : Value Ref) :
    (appendElem arr v : ServerProg H _).CallsOnly (Quiet key) := by
  unfold appendElem
  split_ifs
  · exact callsOnly_bind (fun _ => callsOnly_pure _ _) (quiet_ask (.change _) ⟨⟨trivial, trivial⟩, rfl⟩)
  · exact callsOnly_bind (fun _ => callsOnly_pure _ _) (quiet_ask (.newArray _) ⟨⟨trivial, trivial⟩, rfl⟩)

theorem quiet_consElem [Runtime] (v : Value Ref) (arr : Slice) :
    (consElem v arr : ServerProg H _).CallsOnly (Quiet key) := by
  refine callsOnly_bind (fun _ => ?_) (quiet_ask (.newArray 1) ⟨⟨trivial, trivial⟩, rfl⟩)
  split_ifs
  · exact callsOnly_pure _ _
  · exact callsOnly_bind (fun _ => callsOnly_pure _ _)
      (quiet_ask (.newArray _) ⟨⟨trivial, trivial⟩, rfl⟩)

theorem quiet_pushElems [Runtime] : ∀ (side : ListEnd) (elems : List Str) (arr : Slice),
    (pushElems side arr elems : ServerProg H _).CallsOnly (Quiet key)
  | .left, [], _ | .right, [], _ => callsOnly_pure _ _
  | .left, _ :: elems, arr => callsOnly_bind (quiet_pushElems .left elems) (quiet_consElem key _ arr)
  | .right, _ :: elems, arr => callsOnly_bind (quiet_pushElems .right elems) (quiet_appendElem key arr _)

theorem conforms_storePushed [Runtime] (side : ListEnd) (arr : Slice) (elems : List Str) :
    Conforms (H := H) (Updating key) (storePushed side key arr elems) false := by
  refine .bind (fun arr => Prog.Conforms.of_marked ?_ false) (quiet_pushElems key side elems arr)
  exact conforms_putValue_bind fun _ => conforms_setKeyType_bind fun _ =>
    conforms_pure_of (success_integerReply _) true

theorem conforms_push [Runtime] (side : ListEnd) (rest : List Str) :
    Conforms (H := H) (Updating key) (push side (key :: rest)) false := by
  cases rest with
  | nil => exact conforms_pure _
  | cons elem elems =>
    refine conforms_assert (conforms_curValue_bind fun v => ?_)
    cases v with
    | none => exact conforms_storePushed key side _ _
    | some v =>
      dsimp only
      split
      · exact conforms_pure _
      · exact conforms_storePushed key side _ _

theorem success_poppedReply [Floats] [Printing] (vs : List (Value Ref)) : Success (poppedReply vs) := by
  unfold poppedReply
  split
  · exact success_formatBulkString _
  · exact success_arrayReply _

theorem conforms_storePopped [Floats] [Printing] (vs : List (Value Ref)) (rest : Slice) :
    Conforms (H := H) (Updating key) (storePopped key vs rest) true := by
  unfold storePopped
  refine .ite (conforms_tombstone_bind (success_poppedReply vs)) ?_
  exact conforms_putValue_bind fun _ => conforms_pure_of (success_poppedReply vs) true

theorem conforms_pop [Floats] [Printing] (side : ListEnd) (rest : List Str) :
    Conforms (H := H) (Updating key) (pop side (key :: rest)) false := by
  refine conforms_assert ?_
  cases popCount rest with
  | none => exact conforms_pure _
  | some count =>
    refine conforms_curValue_bind fun v => ?_
    cases v with
    | none => exact conforms_pure _
    | some v =>
      dsimp only
      split
      · exact conforms_pure _
      · exact .ite (conforms_pure _) ((conforms_storePopped key _ _).of_marked false)

end Lists

/-! ### Sets, sorted sets and streams -/

section Sets

variable (key : Str)

theorem conforms_storeAdded (t : KeyType) (m entries : Fields) :
    Conforms (H := H) (Updating key) (storeAdded key t m entries) true :=
  .bind_marked (fun _ => conforms_putValue_bind fun _ =>
    conforms_setKeyType_bind fun _ => conforms_pure_of (success_integerReply _) true)
      (updating_ask .newMap ⟨trivial, trivial⟩)

theorem conforms_sadd (rest : List Str) : Conforms (H := H) (Updating key) (sadd (key :: rest)) false := by
  cases rest with
  | nil => exact conforms_pure _
  | cons member members =>
    refine conforms_assert (conforms_curValue_bind fun v => ?_)
    cases v with
    | none => exact (conforms_storeAdded key _ _ _).of_marked false
    | some v =>
      dsimp only
      split
      · exact conforms_pure _
      · exact (conforms_storeAdded key _ _ _).of_marked false

theorem quiet_deleteMembers (r : Ref) : ∀ (members : List Str) (m : Fields),
    (deleteMembers r m members : ServerProg H _).CallsOnly (Quiet key)
  | [], _ => callsOnly_pure _ _
  | member :: members, m => by
    unfold deleteMembers
    split_ifs
    · refine callsOnly_bind (fun _ => ?_) (quiet_ask (.change _) ⟨⟨trivial, trivial⟩, rfl⟩)
      exact callsOnly_bind (fun _ => callsOnly_pure _ _) (quiet_deleteMembers r members _)
    · exact quiet_deleteMembers r members m

theorem conforms_storeRemoved (r : Ref) (m : Fields) (members : List Str) :
    Conforms (H := H) (Updating key) (storeRemoved key r m members) false := by
  refine .bind (fun x => Prog.Conforms.of_marked ?_ false) (quiet_deleteMembers key r members m)
  refine .ite (conforms_tombstone_bind (success_integerReply _)) ?_
  exact conforms_putValue_bind fun _ =>
    conforms_pure_of (success_integerReply _) true

theorem conforms_srem (rest : List Str) : Conforms (H := H) (Updating key) (srem (key :: rest)) false := by
  cases rest with
  | nil => exact conforms_pure _
  | cons member members =>
    refine conforms_assert ?_
    refine conforms_curValue_bind fun v => ?_
    cases v with
    | none => exact conforms_pure _
    | some v =>
      dsimp only
      split
      · exact conforms_pure _
      · exact conforms_storeRemoved key _ _ _

theorem conforms_storeScores [Floats] (m : Fields) (args : List (Str × Str)) :
    Conforms (H := H) (Updating key) (storeScores key m args) false := by
  unfold storeScores
  split
  · exact conforms_pure _
  · exact (conforms_storeAdded key _ _ _).of_marked false

theorem conforms_zadd [Floats] (rest : List Str) : Conforms (H := H) (Updating key) (zadd (key :: rest)) false := by
  unfold zadd
  dsimp only
  cases pairs rest with
  | none => exact conforms_pure _
  | some args =>
    refine .bind (fun _ => .ite (conforms_curValue_bind fun v => ?_) (conforms_pure _))
      (quiet_of_peeks key (peeks_assertKeyTypeAgain key .zset))
    cases v with
    | none => exact conforms_storeScores key _ _
    | some v =>
      dsimp only
      split
      · exact conforms_pure _
      · exact conforms_storeScores key _ _

theorem conforms_zrem (rest : List Str) : Conforms (H := H) (Updating key) (zrem (key :: rest)) false := by
  cases rest with
  | nil => exact conforms_pure _
  | cons member members =>
    refine conforms_curValue_bind fun v => ?_
    cases v with
    | none => exact conforms_pure _
    | some v =>
      dsimp only
      split
      · exact conforms_pure _
      · exact conforms_storeRemoved key _ _ _

theorem conforms_storeEntry [Runtime] (id : Str) (arr : Slice) (fields : List (Str × Str)) :
    Conforms (H := H) (Updating key) (storeEntry key id arr fields) false := by
  refine .bind (fun r => ?_) (quiet_ask .newMap ⟨⟨trivial, trivial⟩, rfl⟩)
  refine .bind (fun arr => Prog.Conforms.of_marked ?_ false) (quiet_appendElem key arr _)
  exact conforms_putValue_bind fun _ =>
    conforms_setKeyType_bind fun _ =>
    conforms_pure_of (success_formatBulkString _) true

theorem conforms_xadd [Runtime] (rest : List Str) : Conforms (H := H) (Updating key) (xadd (key :: rest)) false := by
  cases rest with
  | nil => exact conforms_pure _
  | cons id rest =>
    unfold xadd
    dsimp only
    cases pairs rest with
    | none => exact conforms_pure _
    | some fields =>
      refine conforms_assert (.bind (fun id => ?_)
        (quiet_of_peeks key (peeks_streamID key id)))
      cases id with
      | none => exact conforms_pure _
      | some id =>
        refine conforms_curValue_bind fun v => ?_
        cases v with
        | none => exact conforms_storeEntry key _ _ _
        | some v =>
          dsimp only
          split
          · exact conforms_pure _
          · exact conforms_storeEntry key _ _ _

end Sets

/-! ### All of them -/

def isKeyWrite : ExtendedCommand → Bool
  | .counter _ | .append | .getset | .setnx | .setex | .psetex | .push _ | .pop _ | .sadd | .srem
  | .zadd | .zrem | .xadd => true
  | _ => false

variable [Floats] [Spaces] [Printing] [Unicode] [Runtime]

def isUpdate : ExtendedCommand → Bool
  | .counter _ | .append | .push _ | .pop _ | .sadd | .srem | .zadd | .zrem | .xadd => true
  | _ => false

variable {cmd : ExtendedCommand}

theorem conforms_of_isUpdate (h : isUpdate cmd = true) (key : Str) (rest : List Str) :
    Conforms (H := H) (Updating key) (handleExtended cmd (key :: rest)) false := by
  cases cmd
  case counter c => exact conforms_counter c key rest
  case append => exact conforms_append key rest
  case push side => exact conforms_push key side rest
  case pop side => exact conforms_pop key side rest
  case sadd => exact conforms_sadd key rest
  case srem => exact conforms_srem key rest
  case zadd => exact conforms_zadd key rest
  case zrem => exact conforms_zrem key rest
  case xadd => exact conforms_xadd key rest
  all_goals cases h

/-- A command that writes the value of `key` has only to do with `key`, and replies with success once it
has appended something. -/
theorem conforms_handleExtended (h : isKeyWrite cmd = true) (key : Str) (rest : List Str) :
    Conforms (H := H) (OnKey key) (handleExtended cmd (key :: rest)) false := by
  by_cases hupdate : isUpdate cmd = true
  · exact (conforms_of_isUpdate hupdate key rest).mono (fun _ hop => hop.1) fun _ hq => hq
  · cases cmd
    case getset => exact (conforms_getset key rest).mono (fun _ hop => hop.1) fun _ hq => hq
    case setnx => exact (conforms_setnx key rest).mono (fun _ hop => hop.1) fun _ hq => hq
    case setex => exact conforms_setex second key rest
    case psetex => exact conforms_setex millisecond key rest
    all_goals first | exact absurd rfl hupdate | cases h

theorem handleExtended_nil (h : isKeyWrite cmd = true) :
    (handleExtended cmd [] : ServerProg H Str) = pure wrongArgs := by
  cases cmd <;> first | exact absurd h Bool.false_ne_true | rfl

theorem callsOnly_runExtended {P : ServerOp H → Prop} {args : List Str}
    (hp : (handleExtended cmd args).CallsOnly P) (hstale : P .staleRefused) :
    (runExtended cmd args).CallsOnly P := by
  have hp' : (do let reply ← handleExtended cmd args
                 pure (.ok reply) : ServerProg H Outcome).CallsOnly P :=
    callsOnly_bind (fun _ => callsOnly_pure _ _) hp
  unfold runExtended
  split_ifs
  · refine callsOnly_bind (fun msg => ?_) (callsOnly_ask hstale)
    cases msg with
    | some msg => exact callsOnly_pure _ _
    | none => exact hp'
  · exact hp'

end Wavicle.Resp3
