import Wavicle.Lib.Results
import Wavicle.Resp3.TextServers

/-! # Refusals for the type of a key

The type of a key is what the index says, and it says so after the value has expired or was evicted; without an
entry, a path below the key makes it a hash. -/

namespace Wavicle.Resp3

open Lib Wavicle.Core Storage Engine Prog Server

section

variable {H : Type} [DecidableEq H] [Hashing H] [Floats]
  {s t : Server (World Ref H) H} {key : Str} {want : KeyType}

/-! ### The commands -/

def CoreCommand.wants : CoreCommand → Option KeyType
  | .set | .mset => some .string
  | .hset => some .hash
  | _ => none

def ExtendedCommand.wants : ExtendedCommand → Option KeyType
  | .counter _ | .append | .getset => some .string
  | .push _ | .pop _ | .llen | .lrange | .lindex => some .list
  | .sadd | .srem | .smembers | .scard | .sismember => some .set
  | .zadd | .zscore | .zcard | .zrem | .zrange => some .zset
  | .hmset => some .hash
  | .xadd | .xlen | .xrange => some .stream
  | _ => none

section

variable [Spaces] [Printing] [Unicode] [Runtime]

/-- A command on a key that wants it to be of a type, and the answer by which it is refused. An `MSET` is
here one of a single pair. -/
inductive Tests : List Str → Str → KeyType → Outcome → Prop where
  | core {name key : Str} {rest : List Str} {c : CoreCommand} {want : KeyType}
      (h : coreNames.lookup (toUpper name) = some c) (hwant : c.wants = some want)
      (hone : c = .mset → rest.length = 1) :
      Tests (name :: key :: rest) key want (failure wrongTypeMessage)
  | extended {name key : Str} {rest : List Str} {c : ExtendedCommand} {want : KeyType}
      (hcore : coreNames.lookup (toUpper name) = none)
      (h : extendedNames.lookup (toUpper name) = some c) (hwant : c.wants = some want) :
      Tests (name :: key :: rest) key want (.ok wrongTypeResp)

/-! ### The fields of hashes -/

/-- A command and its answer that have written a field of a hash. -/
inductive Writes : List Str → Outcome → Str → Str → Prop where
  | hset {name key field val : Str} {more : List Str} (h : toUpper name = str "HSET") :
      Writes (name :: key :: field :: val :: more) (.ok (integerReply 1)) key field
  | hmset {name key field val : Str} {rest : List Str} {ps : List (Str × Str)}
      (h : toUpper name = str "HMSET") (hps : pairs rest = some ps) (hmem : (field, val) ∈ ps) :
      Writes (name :: key :: rest) (.ok okReply) key field

/-- The states of a run, each with the fields that `HSET` and `HMSET` have written so far. -/
inductive History : (Str → Str → Prop) → Server (World Ref H) H → Prop where
  | new (maxBytes : ℤ) (now : Time) : History (fun _ _ => False) (.new (.init maxBytes now) now)
  | command {W s} (h : History W s) (fuel : ℕ) (args : List Str) :
      History (fun key field => W key field ∨
          Writes args (s.handle (shardedBackend H) fuel args).1 key field)
        (s.handle (shardedBackend H) fuel args).2
  | tick {W s} (h : History W s) (now : Time) (hnow : s.store.now ≤ now) :
      History W { s with store := { s.store with now := now } }
  | sweep {W s} (h : History W s) :
      History W { s with store := { s.store with cache := s.store.cache.sweepExpired s.store.now } }
  | health {W s} (h : History W s) (stale : Option Str) : History W { s with stale := stale }

theorem History.reachable {W : Str → Str → Prop} (h : History W s) : s.Reachable := by
  induction h with
  | new maxBytes now => exact reachable_new maxBytes now
  | command _ fuel args ih => exact ih.command fuel args
  | tick _ now hnow ih => exact ih.step (.tick now hnow)
  | sweep _ ih => exact ih.step .sweep
  | health _ stale ih => exact ih.step (.health stale)

end

/-! ### What a key holds -/

/-- A value that the commands of a type can use. -/
def HasType (want : KeyType) (v : Option (Value Ref)) : Prop :=
  match want with
  | .string => (toText v).isSome
  | .hash => False
  | .list => inferType v = .list
  | .set => inferType v = .set
  | .zset => inferType v = .zset
  | .stream => inferType v = .stream

/-- The key holds something live of another type: a value, or a field of a hash. -/
def HoldsOther (W : Str → Str → Prop) (s : Server (World Ref H) H) (key : Str) (want : KeyType) : Prop :=
  (∃ v, s.value key = some v ∧ ¬ HasType want v) ∨
    want ≠ .hash ∧ ∃ field, W key field ∧ (s.live (fieldPath key field)).isSome

/-- Nothing live at the key is of another type, but the index has another type for it, or a path below it
is listed and makes it a hash. -/
def Misfiled (W : Str → Str → Prop) (s : Server (World Ref H) H) (key : Str) (want : KeyType) : Prop :=
  ¬ HoldsOther W s key want ∧
    ((∃ other ≠ want, s.keyTypes.lookup key = some other) ∨
      s.keyTypes.lookup key = none ∧ s.value key = none ∧ want ≠ .hash ∧ s.hasBelow key = true)

variable {v : Option (Value Ref)} {p : ServerProg H Str} {typed : ServerProg H Bool}
  {cmd : ExtendedCommand} {rest : List Str}

theorem inferType_string (h : (toText v).isSome) : inferType v = .string := by
  unfold toText at h
  split at h
  · rfl
  · rfl
  · rfl
  · rfl
  · cases h

theorem HasType.inferType_eq (h : HasType want v) : inferType v = want := by
  cases want with
  | string => exact inferType_string h
  | hash => exact h.elim
  | list | set | zset | stream => exact h

section

omit [Floats]

theorem asArray_of_inferType (h : inferType v = .list ∨ inferType v = .stream) :
    ∃ arr, asArray v = some arr := by
  unfold inferType at h
  split at h
  · exact ⟨_, rfl⟩
  · exact ⟨_, rfl⟩
  · split_ifs at h <;> simp at h
  · simp at h

theorem asZSet_of_inferType (h : inferType v = .zset) : ∃ m, asZSet v = some m := by
  unfold inferType at h
  split at h
  · split_ifs at h
  · cases h
  · split_ifs at h with hz
    exact Option.isSome_iff_exists.1 hz
  · cases h

theorem asSet_of_inferType (h : inferType v = .set) : ∃ m, asSet v = some m := by
  unfold inferType at h
  split at h
  · split_ifs at h
  · cases h
  · split_ifs at h with _ hset
    exact Option.isSome_iff_exists.1 hset
  · cases h

end

omit [DecidableEq H] in
theorem misfiled_iff {W : Str → Str → Prop} :
    Misfiled W s key want ↔ ¬ HoldsOther W s key want ∧ s.admits key want = false := by
  unfold Misfiled admits typeOf inferred
  refine and_congr_right fun hnot => ?_
  have hvalue : ∀ v, s.value key = some v → inferType v = want := fun v hv =>
    (not_not.1 fun h => hnot (.inl ⟨v, hv, h⟩) : HasType want v).inferType_eq
  rw [decide_eq_false_iff_not, not_or]
  cases hindex : s.keyTypes.lookup key with
  | some other => simp
  | none =>
    rw [Option.none_or]
    cases hv : s.value key with
    | some v => simp [hvalue v hv]
    | none => cases s.hasBelow key <;> simp [eq_comm]

/-! ### The answers of the commands

`Explains s key want p`: from a server that holds what `s` holds, `p` answers with a type violation only if
the value of the key is of another type. -/

/-- The key has a live value of another type. -/
def ValueOther (s : Server (World Ref H) H) (key : Str) (want : KeyType) : Prop :=
  ∃ v, s.value key = some v ∧ ¬ HasType want v

/-- Where the program refuses, there is such a value. -/
def Explains (s : Server (World Ref H) H) (key : Str) (want : KeyType) (p : ServerProg H Str) : Prop :=
  ∀ t, s.Same t → Ends (step (shardedBackend H)) p t fun r _ =>
    r = wrongTypeResp → ValueOther s key want

/-- The program does not refuse the type. -/
abbrev Accepts (p : ServerProg H Str) : Prop := p.Returns (· ≠ wrongTypeResp)

theorem explains_of_accepts (h : Accepts p) : Explains s key want p :=
  fun t _ hr => absurd hr (h.run _ t)

theorem explains_bind {α : Type} {p : ServerProg H α} {f : α → ServerProg H Str} {Q : α → Prop}
    (hp : Finds s p Q) (hf : ∀ a, Explains s key want (f a)) : Explains s key want (p >>= f) :=
  fun _ ht => (hp.ends ht).bind fun a u h => hf a u h.2

theorem explains_curValue {f : Option (Option (Value Ref)) → ServerProg H Str} (hnone : Accepts (f none))
    (hsome : ∀ v, HasType want v → Accepts (f (some v))) : Explains s key want (curValue key >>= f) := by
  refine fun t ht => ((finds_curValue key).ends ht).bind fun found u h => ?_
  obtain ⟨rfl, -⟩ := h
  intro hr
  cases hv : s.value key with
  | none =>
    rw [hv] at hr
    exact absurd hr (hnone.run _ u)
  | some v =>
    refine ⟨v, hv, fun htype => ?_⟩
    rw [hv] at hr
    exact absurd hr ((hsome v htype).run _ u)

/-- A refusal of the command in `s` has a reason: the test fails, or the value is of another type. -/
def Justified (s : Server (World Ref H) H) (key : Str) (want : KeyType) (p : ServerProg H Str) : Prop :=
  Ends (step (shardedBackend H)) p s fun r _ =>
    r = wrongTypeResp → s.admits key want = false ∨ ValueOther s key want

theorem Explains.justified (h : Explains s key want p) : Justified s key want p :=
  (h s (.refl s)).mono fun _ _ h' hr => .inr (h' hr)

theorem justified_of_accepts (h : Accepts p) : Justified s key want p :=
  (explains_of_accepts h).justified

/-- The program tells whether the key has the type, and may record its type. -/
def IsTest (s : Server (World Ref H) H) (key : Str) (want : KeyType) (typed : ServerProg H Bool) : Prop :=
  Ends (step (shardedBackend H)) typed s fun r u => r = s.admits key want ∧ (s.recorded key).Same u

theorem Explains.after (htyped : IsTest s key want typed)
    (hp : Explains (s.recorded key) key want p) :
    Justified s key want (do if ← typed then p else pure wrongTypeResp) := by
  refine htyped.bind fun ok u h => ?_
  obtain ⟨rfl, hu⟩ := h
  split_ifs with hadmits
  · exact (hp u hu).mono fun _ _ h' hr => .inr (h' hr)
  · exact fun _ => .inl (Bool.eq_false_iff.2 hadmits)

theorem justified_typed (hs : s.store.Inv) (hp : Explains (s.recorded key) key want p) :
    Justified s key want (do if ← assertKeyType key want then p else pure wrongTypeResp) :=
  hp.after (ends_assertKeyType hs key want)

theorem justified_typedAgain (hs : s.store.Inv) (hp : Explains (s.recorded key) key want p) :
    Justified s key want (do if ← assertKeyTypeAgain key want then p else pure wrongTypeResp) :=
  hp.after (ends_assertKeyTypeAgain hs key want)

/-! ### Programs that accept -/

section

omit [DecidableEq H] [Hashing H] [Floats]

theorem accepts_success {r : Str} (h : Success r) : Accepts (pure r : ServerProg H Str) :=
  returns_pure h.ne_wrongTypeResp

theorem accepts_wrongArgs : Accepts (pure wrongArgs : ServerProg H Str) := returns_pure (by decide)

theorem accepts_notAnInteger : Accepts (pure notAnInteger : ServerProg H Str) := returns_pure (by decide)

theorem accepts_storeCounter (key : Str) (n : Int64) : Accepts (storeCounter key n : ServerProg H Str) :=
  returns_bind fun _ => accepts_success (success_integerReply _)

theorem accepts_storeAppended (key text : Str) : Accepts (storeAppended key text : ServerProg H Str) :=
  returns_bind fun _ => accepts_success (success_integerReply _)

theorem accepts_storePushed [Runtime] (side : ListEnd) (key : Str) (arr : Slice) (elems : List Str) :
    Accepts (storePushed side key arr elems : ServerProg H Str) :=
  returns_bind fun _ => returns_bind fun _ => returns_bind fun _ =>
    accepts_success (success_integerReply _)

end

omit [DecidableEq H] [Hashing H] in
theorem accepts_storePopped [Printing] (key : Str) (vs : List (Value Ref)) (rest : Slice) :
    Accepts (storePopped key vs rest : ServerProg H Str) := by
  unfold storePopped
  split_ifs
  · exact returns_bind fun _ => returns_bind fun _ => accepts_success (success_poppedReply vs)
  · exact returns_bind fun _ => accepts_success (success_poppedReply vs)

omit [DecidableEq H] [Hashing H] [Floats] in
theorem accepts_storeAdded (key : Str) (t : KeyType) (m entries : Fields) :
    Accepts (storeAdded key t m entries : ServerProg H Str) :=
  returns_bind fun _ => returns_bind fun _ => returns_bind fun _ =>
    accepts_success (success_integerReply _)

omit [DecidableEq H] [Hashing H] [Floats] in
theorem accepts_storeRemoved (key : Str) (r : Ref) (m : Fields) (members : List Str) :
    Accepts (storeRemoved key r m members : ServerProg H Str) := by
  unfold storeRemoved
  refine returns_bind fun left => ?_
  dsimp only
  split_ifs
  · exact returns_bind fun _ => returns_bind fun _ => accepts_success (success_integerReply _)
  · exact returns_bind fun _ => accepts_success (success_integerReply _)

omit [DecidableEq H] [Hashing H] in
theorem accepts_storeScores (key : Str) (m : Fields) (args : List (Str × Str)) :
    Accepts (storeScores key m args : ServerProg H Str) := by
  unfold storeScores
  split
  · exact returns_pure (by decide)
  · exact accepts_storeAdded _ _ _ _

omit [DecidableEq H] [Hashing H] [Floats] in
theorem accepts_storeEntry [Runtime] (key id : Str) (arr : Slice) (fields : List (Str × Str)) :
    Accepts (storeEntry key id arr fields : ServerProg H Str) :=
  returns_bind fun _ => returns_bind fun _ => returns_bind fun _ => returns_bind fun _ =>
    accepts_success (success_formatBulkString _)

/-! ### Command by command -/

theorem justified_counter [Spaces] (hs : s.store.Inv) (cmd : Counter) (rest : List Str) :
    Justified s key .string (counter cmd (key :: rest)) := by
  unfold counter
  dsimp only
  cases cmd.delta rest with
  | none => exact justified_of_accepts (returns_pure (by decide))
  | some delta =>
    refine justified_typed hs (explains_curValue (accepts_storeCounter _ _) fun v hv => ?_)
    obtain ⟨text, htext⟩ := Option.isSome_iff_exists.1 hv
    simp only [htext]
    split
    · exact accepts_notAnInteger
    · exact accepts_storeCounter _ _

theorem justified_append (hs : s.store.Inv) (rest : List Str) :
    Justified s key .string (append (key :: rest)) := by
  cases rest with
  | nil => exact justified_of_accepts accepts_wrongArgs
  | cons text rest =>
    refine justified_typed hs (explains_curValue (accepts_storeAppended _ _) fun v hv => ?_)
    obtain ⟨cur, hcur⟩ := Option.isSome_iff_exists.1 hv
    simp only [hcur]
    exact accepts_storeAppended _ _

theorem justified_getset (hs : s.store.Inv) (rest : List Str) :
    Justified s key .string (getset (key :: rest)) := by
  cases rest with
  | nil => exact justified_of_accepts accepts_wrongArgs
  | cons text rest =>
    refine justified_typed hs (explains_of_accepts (returns_bind fun _ => returns_bind fun _ => ?_))
    exact accepts_success (success_elim _)

theorem justified_push [Runtime] (hs : s.store.Inv) (side : ListEnd) (rest : List Str) :
    Justified s key .list (push side (key :: rest)) := by
  cases rest with
  | nil => exact justified_of_accepts accepts_wrongArgs
  | cons elem elems =>
    refine justified_typed hs (explains_curValue (accepts_storePushed _ _ _ _) fun v hv => ?_)
    obtain ⟨arr, harr⟩ := asArray_of_inferType (.inl hv)
    simp only [harr]
    exact accepts_storePushed _ _ _ _

theorem justified_pop [Printing] (hs : s.store.Inv) (side : ListEnd) (rest : List Str) :
    Justified s key .list (pop side (key :: rest)) := by
  refine justified_typed hs ?_
  cases popCount rest with
  | none => exact explains_of_accepts accepts_notAnInteger
  | some count =>
    refine explains_curValue (accepts_success success_nullReply) fun v hv => ?_
    obtain ⟨arr, harr⟩ := asArray_of_inferType (.inl hv)
    simp only [harr]
    split_ifs
    · exact accepts_success success_nullReply
    · exact accepts_storePopped _ _ _

theorem justified_llen (h : want = .list ∨ want = .stream) (rest : List Str) :
    Justified s key want (llen (key :: rest)) := by
  refine (explains_curValue (accepts_success (success_integerReply _)) fun v hv => ?_).justified
  obtain ⟨arr, harr⟩ := asArray_of_inferType (v := v) (by rw [hv.inferType_eq]; exact h)
  simp only [harr]
  exact accepts_success (success_integerReply _)

theorem justified_lrange [Printing] (rest : List Str) : Justified s key .list (lrange (key :: rest)) := by
  rcases rest with _ | ⟨start, _ | ⟨stop, rest⟩⟩
  · exact justified_of_accepts accepts_wrongArgs
  · exact justified_of_accepts accepts_wrongArgs
  · refine (explains_curValue (accepts_success (success_arrayReply _)) fun v hv => ?_).justified
    obtain ⟨arr, harr⟩ := asArray_of_inferType (.inl hv)
    simp only [harr]
    split
    · exact accepts_success (success_arrayReply _)
    · exact accepts_notAnInteger

theorem justified_lindex [Printing] (rest : List Str) : Justified s key .list (lindex (key :: rest)) := by
  cases rest with
  | nil => exact justified_of_accepts accepts_wrongArgs
  | cons idx rest =>
    refine (explains_curValue (accepts_success success_nullReply) fun v hv => ?_).justified
    obtain ⟨arr, harr⟩ := asArray_of_inferType (.inl hv)
    simp only [harr]
    split
    · exact accepts_notAnInteger
    · rename_i idx _
      cases elemAt idx.toInt arr.2 with
      | none => exact accepts_success success_nullReply
      | some v => exact accepts_success (success_formatBulkString _)

theorem justified_sadd (hs : s.store.Inv) (rest : List Str) :
    Justified s key .set (sadd (key :: rest)) := by
  cases rest with
  | nil => exact justified_of_accepts accepts_wrongArgs
  | cons member members =>
    refine justified_typed hs (explains_curValue (accepts_storeAdded _ _ _ _) fun v hv => ?_)
    obtain ⟨m, hm⟩ := asSet_of_inferType hv
    simp only [hm]
    exact accepts_storeAdded _ _ _ _

theorem justified_srem (hs : s.store.Inv) (rest : List Str) :
    Justified s key .set (srem (key :: rest)) := by
  cases rest with
  | nil => exact justified_of_accepts accepts_wrongArgs
  | cons member members =>
    refine justified_typed hs
      (explains_curValue (accepts_success (success_integerReply _)) fun v hv => ?_)
    obtain ⟨m, hm⟩ := asSet_of_inferType hv
    simp only [hm]
    exact accepts_storeRemoved _ _ _ _

theorem justified_smembers (rest : List Str) : Justified s key .set (smembers (key :: rest)) := by
  refine (explains_curValue (accepts_success (success_arrayReply _)) fun v hv => ?_).justified
  obtain ⟨m, hm⟩ := asSet_of_inferType hv
  simp only [hm]
  exact accepts_success (success_arrayReply _)

theorem justified_scard (rest : List Str) : Justified s key .set (scard (key :: rest)) := by
  refine (explains_curValue (accepts_success (success_integerReply _)) fun v hv => ?_).justified
  obtain ⟨m, hm⟩ := asSet_of_inferType hv
  simp only [hm]
  exact accepts_success (success_integerReply _)

theorem justified_sismember (rest : List Str) : Justified s key .set (sismember (key :: rest)) := by
  cases rest with
  | nil => exact justified_of_accepts accepts_wrongArgs
  | cons member rest =>
    refine (explains_curValue (accepts_success (success_integerReply _)) fun v hv => ?_).justified
    obtain ⟨m, hm⟩ := asSet_of_inferType hv
    simp only [hm]
    exact accepts_success (success_integerReply _)

omit [Floats] in
theorem asZSetOrEmpty_of_asZSet {m : Ref × Fields} (h : asZSet v = some m) : asZSetOrEmpty v = some m := by
  obtain ⟨hm, hscores⟩ := Option.filter_eq_some_iff.1 h
  exact Option.filter_eq_some_iff.2 ⟨hm, decide_eq_true (.inr (of_decide_eq_true hscores).2)⟩

theorem justified_zadd (hs : s.store.Inv) (rest : List Str) :
    Justified s key .zset (zadd (key :: rest)) := by
  unfold zadd
  dsimp only
  cases pairs rest with
  | none => exact justified_of_accepts accepts_wrongArgs
  | some args =>
    refine justified_typedAgain hs (explains_curValue (accepts_storeScores _ _ _) fun v hv => ?_)
    obtain ⟨m, hm⟩ := asZSet_of_inferType hv
    simp only [asZSetOrEmpty_of_asZSet hm]
    exact accepts_storeScores _ _ _

theorem justified_zscore (rest : List Str) : Justified s key .zset (zscore (key :: rest)) := by
  cases rest with
  | nil => exact justified_of_accepts accepts_wrongArgs
  | cons member rest =>
    refine (explains_curValue (accepts_success success_nullReply) fun v hv => ?_).justified
    obtain ⟨m, hm⟩ := asZSet_of_inferType hv
    simp only [hm]
    split
    · exact accepts_success (success_formatBulkString _)
    · exact accepts_success success_nullReply

theorem justified_zcard (rest : List Str) : Justified s key .zset (zcard (key :: rest)) := by
  refine (explains_curValue (accepts_success (success_integerReply _)) fun v hv => ?_).justified
  obtain ⟨m, hm⟩ := asZSet_of_inferType hv
  simp only [hm]
  exact accepts_success (success_integerReply _)

theorem justified_zrem (rest : List Str) : Justified s key .zset (zrem (key :: rest)) := by
  cases rest with
  | nil => exact justified_of_accepts accepts_wrongArgs
  | cons member members =>
    refine (explains_curValue (accepts_success (success_integerReply _)) fun v hv => ?_).justified
    obtain ⟨m, hm⟩ := asZSet_of_inferType hv
    simp only [hm]
    exact accepts_storeRemoved _ _ _ _

theorem success_rangeReply (withScores : Bool) (l : List (Str × UInt64)) :
    Success (rangeReply withScores l) := by
  unfold rangeReply
  split_ifs
  · exact success_arrayReply _
  · exact success_arrayReply _

theorem justified_zrange [Unicode] (rest : List Str) : Justified s key .zset (zrange (key :: rest)) := by
  rcases rest with _ | ⟨start, _ | ⟨stop, rest⟩⟩
  · exact justified_of_accepts accepts_wrongArgs
  · exact justified_of_accepts accepts_wrongArgs
  · refine (explains_curValue (accepts_success (success_arrayReply _)) fun v hv => ?_).justified
    obtain ⟨m, hm⟩ := asZSet_of_inferType hv
    simp only [hm]
    split
    · exact accepts_success (success_rangeReply _ _)
    · exact accepts_notAnInteger

theorem justified_hmset (hs : s.store.Inv) (rest : List Str) :
    Justified s key .hash (hmset (key :: rest)) := by
  unfold hmset
  dsimp only
  cases pairs rest with
  | none => exact justified_of_accepts accepts_wrongArgs
  | some fields =>
    refine justified_typedAgain hs (explains_of_accepts (returns_bind fun _ => returns_bind fun _ => ?_))
    exact accepts_success success_okReply

omit [DecidableEq H] [Hashing H] [Floats] in
theorem looks_streamID (id : Str) : (streamID id : ServerProg H _).CallsOnly Looks := by
  unfold streamID
  split_ifs
  · exact callsOnly_bind (fun _ => callsOnly_pure _ _) (callsOnly_ask trivial)
  · exact callsOnly_pure _ _

theorem justified_xadd [Runtime] (hs : s.store.Inv) (rest : List Str) :
    Justified s key .stream (xadd (key :: rest)) := by
  cases rest with
  | nil => exact justified_of_accepts accepts_wrongArgs
  | cons id rest =>
    unfold xadd
    dsimp only
    cases pairs rest with
    | none => exact justified_of_accepts accepts_wrongArgs
    | some fields =>
      refine justified_typed hs (explains_bind (finds_of_looks (looks_streamID id)) fun found => ?_)
      cases found with
      | none => exact explains_of_accepts (returns_pure (by decide))
      | some id =>
        refine explains_curValue (accepts_storeEntry _ _ _ _) fun v hv => ?_
        obtain ⟨arr, harr⟩ := asArray_of_inferType (.inr hv)
        simp only [harr]
        exact accepts_storeEntry _ _ _ _

theorem justified_xrange [Printing] (rest : List Str) : Justified s key .stream (xrange (key :: rest)) := by
  rcases rest with _ | ⟨lo, _ | ⟨hi, rest⟩⟩
  · exact justified_of_accepts accepts_wrongArgs
  · exact justified_of_accepts accepts_wrongArgs
  · refine (explains_curValue (accepts_success (success_arrayReply _)) fun v hv => ?_).justified
    obtain ⟨arr, harr⟩ := asArray_of_inferType (.inr hv)
    simp only [harr]
    split
    · exact accepts_success ⟨42, by decide, _, rfl⟩
    · exact returns_pure (by decide)
    · exact returns_pure (by decide)

variable [Spaces] [Printing] [Unicode] [Runtime]

theorem justified_handleExtended (hs : s.store.Inv) (hwant : cmd.wants = some want)
    (rest : List Str) : Justified s key want (handleExtended cmd (key :: rest)) := by
  cases cmd <;> cases hwant
  case counter cmd => exact justified_counter hs cmd rest
  case append => exact justified_append hs rest
  case getset => exact justified_getset hs rest
  case push side => exact justified_push hs side rest
  case pop side => exact justified_pop hs side rest
  case llen => exact justified_llen (.inl rfl) rest
  case lrange => exact justified_lrange rest
  case lindex => exact justified_lindex rest
  case sadd => exact justified_sadd hs rest
  case srem => exact justified_srem hs rest
  case smembers => exact justified_smembers rest
  case scard => exact justified_scard rest
  case sismember => exact justified_sismember rest
  case zadd => exact justified_zadd hs rest
  case zscore => exact justified_zscore rest
  case zcard => exact justified_zcard rest
  case zrem => exact justified_zrem rest
  case zrange => exact justified_zrange rest
  case hmset => exact justified_hmset hs rest
  case xadd => exact justified_xadd hs rest
  case xlen => exact justified_llen (.inr rfl) rest
  case xrange => exact justified_xrange rest

/-! ### Commands as a whole -/

section

omit [Floats] [Spaces] [Printing] [Unicode] [Runtime]

theorem ends_tested {α : Type} {p q : ServerProg H α} {R : α → Server (World Ref H) H → Prop}
    (htyped : IsTest s key want typed)
    (hp : s.admits key want = true → ∀ u, Ends (shardedStep H) p u R)
    (hq : s.admits key want = false → ∀ u, Ends (shardedStep H) q u R) :
    Ends (shardedStep H) (do if ← typed then p else q) s R := by
  refine htyped.bind fun ok u h => ?_
  obtain ⟨rfl, -⟩ := h
  split_ifs with hadmits
  · exact hp hadmits u
  · exact hq (Bool.eq_false_iff.2 hadmits) u

theorem ends_appendText (u : Server (World Ref H) H) (expr : Expr Ref H) (path : Str) :
    Ends (shardedStep H) (appendText expr path) u fun r _ => ∃ h, r = .ok h :=
  Ends.bind (R := fun _ _ => True) trivial fun _ _ _ => ⟨_, rfl⟩

theorem ends_appended (u : Server (World Ref H) H) (expr : Expr Ref H) (path : Str)
    {p : ServerProg H Outcome} (hp : p.Returns (· ≠ failure wrongTypeMessage)) :
    Ends (shardedStep H)
      (do
        match ← appendText expr path with
        | .error msg => pure (failure msg)
        | .ok _ => p) u fun r _ => r ≠ failure wrongTypeMessage := by
  refine (ends_appendText u expr path).bind fun r t h => ?_
  obtain ⟨hash, rfl⟩ := h
  exact hp.run _ t

theorem refused_iff {p : ServerProg H Outcome} (htyped : IsTest s key want typed)
    (hp : ∀ u, Ends (shardedStep H) p u fun r _ => r ≠ failure wrongTypeMessage) :
    Ends (shardedStep H) (do if ← typed then p else pure (failure wrongTypeMessage)) s
      fun r _ => r = failure wrongTypeMessage ↔ s.admits key want = false := by
  refine ends_tested htyped (fun hok u => ?_) fun hno _ => ends_pure (iff_of_true rfl hno)
  exact (hp u).mono fun r _ hr => iff_of_false hr (Bool.ne_false_iff.2 hok)

theorem refused_set_iff (hs : s.store.Inv) (val : Str) (rest : List Str) :
    Ends (shardedStep H) (set (key :: val :: rest)) s fun r _ =>
      r = failure wrongTypeMessage ↔ s.admits key .string = false := by
  refine refused_iff (ends_assertKeyType hs key .string) fun u => ?_
  refine Ends.bind (R := fun _ _ => True) trivial fun v t _ => ?_
  exact ends_appended t (.eConst v) key (returns_bind fun _ => returns_pure (by simp [failure]))

theorem refused_hset_iff (hs : s.store.Inv) (field val : Str) (rest : List Str) :
    Ends (shardedStep H) (hset (key :: field :: val :: rest)) s fun r _ =>
      r = failure wrongTypeMessage ↔ s.admits key .hash = false := by
  refine refused_iff (ends_assertKeyTypeAgain hs key .hash) fun u => ?_
  exact ends_appended u _ _ (returns_bind fun _ => returns_pure (by simp [failure]))

theorem refused_mset_iff (hs : s.store.Inv) (val : Str) :
    Ends (shardedStep H) (putPairs [(key, val)]) s fun r _ =>
      r = failure wrongTypeMessage ↔ s.admits key .string = false := by
  refine refused_iff (ends_assertKeyType hs key .string) fun u => ?_
  exact ends_appended u _ _ (returns_bind fun _ => returns_pure (by simp [failure]))

end

theorem ends_runExtended {R : Outcome → Server (World Ref H) H → Prop} (hstale : ∀ msg u, R (failure msg) u)
    (h : Ends (shardedStep H) (handleExtended cmd rest) s fun r u => R (.ok r) u) :
    Ends (shardedStep H) (runExtended cmd rest) s R := by
  have hrun : Ends (shardedStep H)
      (do
        let reply ← handleExtended cmd rest
        pure (.ok reply)) s R := h.bind fun _ _ hr => ends_pure hr
  unfold runExtended
  dsimp only
  split_ifs
  · unfold Ends
    rw [run_unlessStale]
    cases s.stale with
    | none => exact hrun
    | some msg => exact hstale msg s
  · exact hrun

omit [Floats] [Spaces] [Printing] [Unicode] [Runtime] in
theorem wrongNumber_ne (cmd : Str) : wrongNumber cmd ≠ failure wrongTypeMessage := by
  intro h
  have hhead : some (119 : UInt8) = some 87 := congrArg List.head? (Fault.error.inj (Except.error.inj h))
  exact absurd hhead (by decide)

omit [Floats] [Runtime] in
theorem justified_runCore (hs : s.store.Inv) (fuel : ℕ) {cmd : CoreCommand}
    (hwant : cmd.wants = some want) (hone : cmd = .mset → rest.length = 1) :
    Ends (shardedStep H) (runCore fuel cmd (key :: rest)) s fun r _ =>
      r = failure wrongTypeMessage → s.admits key want = false := by
  cases cmd <;> cases hwant
  case set =>
    cases rest with
    | nil => exact fun h => absurd h (wrongNumber_ne _)
    | cons val rest => exact (refused_set_iff hs val rest).mono fun _ _ h => h.1
  case mset =>
    obtain ⟨val, rfl⟩ := List.length_eq_one_iff.1 (hone rfl)
    exact (refused_mset_iff hs val).mono fun _ _ h => h.1
  case hset =>
    rcases rest with _ | ⟨field, _ | ⟨val, rest⟩⟩
    · exact fun h => absurd h (wrongNumber_ne _)
    · exact fun h => absurd h (wrongNumber_ne _)
    · exact (refused_hset_iff hs field val rest).mono fun _ _ h => h.1

theorem Tests.justified (hs : s.store.Inv) {fuel : ℕ} {args : List Str} {refusal : Outcome}
    (htests : Tests args key want refusal) (h : (s.handle (shardedBackend H) fuel args).1 = refusal) :
    s.admits key want = false ∨ ValueOther s key want := by
  unfold handle at h
  cases htests with
  | @core name _ rest cmd _ hname hwant hone =>
    rw [handleCommand_core rfl hname] at h
    exact .inl (justified_runCore hs fuel hwant hone h)
  | @extended name _ rest cmd _ hcore hname hwant =>
    rw [handleCommand_extended rfl hcore hname] at h
    have hends : Ends (shardedStep H) (runExtended cmd (key :: rest)) s fun r _ =>
        r = .ok wrongTypeResp → s.admits key want = false ∨ ValueOther s key want := by
      refine ends_runExtended (fun _ _ hmsg => by cases hmsg) ?_
      exact (justified_handleExtended hs hwant rest).mono fun r _ hr hok => hr (Except.ok.inj hok)
    exact hends h

omit [Floats] [Spaces] [Printing] [Unicode] [Runtime] in
theorem ends_refused
    (htyped : IsTest s key want typed)
    (h : s.admits key want = false) :
    Ends (shardedStep H) (do if ← typed then p else pure wrongTypeResp) s fun r _ =>
      r = wrongTypeResp :=
  ends_tested htyped (fun hok => absurd (hok.symm.trans h) (by decide)) fun _ _ => ends_pure rfl

theorem handle_refused {name : Str} (hcore : coreNames.lookup (toUpper name) = none)
    (hname : extendedNames.lookup (toUpper name) = some cmd) (hread : isExtendedRead cmd = false)
    (h : Ends (shardedStep H) (handleExtended cmd rest) s fun r _ => r = wrongTypeResp) :
    (s.handle (shardedBackend H) 0 (name :: rest)).1 = .ok wrongTypeResp := by
  have hrun : Ends (shardedStep H)
      (do
        let reply ← handleExtended cmd rest
        pure (.ok reply) : ServerProg H Outcome) s fun r _ => r = .ok wrongTypeResp :=
    h.bind fun _ _ hr => ends_pure (congrArg _ hr)
  unfold handle
  rw [handleCommand_extended rfl hcore hname]
  unfold runExtended
  rw [hread]
  exact hrun

theorem exists_refused (hs : s.store.Inv) (h : s.admits key want = false) :
    ∃ args refusal, Tests args key want refusal ∧ (s.handle (shardedBackend H) 0 args).1 = refusal := by
  cases want with
  | string =>
    refine ⟨[str "SET", key, []], _, .core (c := .set) rfl rfl (by simp), ?_⟩
    exact (refused_set_iff hs [] []).2 h
  | hash =>
    refine ⟨[str "HSET", key, [], []], _, .core (c := .hset) rfl rfl (by simp), ?_⟩
    exact (refused_hset_iff hs [] [] []).2 h
  | list =>
    refine ⟨[str "LPUSH", key, []], _, .extended (c := .push .left) rfl rfl rfl, ?_⟩
    exact handle_refused rfl rfl rfl (ends_refused (ends_assertKeyType hs key .list) h)
  | set =>
    refine ⟨[str "SADD", key, []], _, .extended (c := .sadd) rfl rfl rfl, ?_⟩
    exact handle_refused rfl rfl rfl (ends_refused (ends_assertKeyType hs key .set) h)
  | zset =>
    refine ⟨[str "ZADD", key, [], []], _, .extended (c := .zadd) rfl rfl rfl, ?_⟩
    exact handle_refused rfl rfl rfl (ends_refused (ends_assertKeyTypeAgain hs key .zset) h)
  | stream =>
    refine ⟨[str "XADD", key, [], [], []], _, .extended (c := .xadd) rfl rfl rfl, ?_⟩
    exact handle_refused rfl rfl rfl (ends_refused (ends_assertKeyType hs key .stream) h)

/-! ### `MSET` -/

omit [Floats] [Spaces] [Printing] [Unicode] [Runtime] in
theorem run_putPairs_cons (s : Server (World Ref H) H) (p : Str × Str) :
    ∃ u, (∀ ps, (putPairs (p :: ps)).run (shardedStep H) s = (putPairs ps).run (shardedStep H) u) ∨
      ∀ ps, (putPairs (p :: ps)).run (shardedStep H) s = (failure wrongTypeMessage, u) := by
  obtain ⟨path, val⟩ := p
  let t := ((assertKeyType path .string).run (shardedStep H) s).2
  cases htest : ((assertKeyType path .string).run (shardedStep H) s).1 with
  | false =>
    refine ⟨t, .inr fun ps => ?_⟩
    unfold putPairs
    rw [run_bind, htest]
    rfl
  | true =>
    let expr : Expr Ref H := .eConst (.vString val)
    obtain ⟨hash, happend⟩ := ends_appendText t expr path
    let u := ((appendText expr path).run (shardedStep H) t).2
    refine ⟨((setKeyType path .string).run (shardedStep H) u).2, .inl fun ps => ?_⟩
    rw [putPairs, run_bind, htest, if_pos rfl, run_bind, happend]
    exact run_bind _ _ _ _

omit [Floats] [Spaces] [Printing] [Unicode] [Runtime] in
theorem refused_putPairs : ∀ (ps : List (Str × Str)) (s : Server (World Ref H) H),
    ((putPairs ps).run (shardedStep H) s).1 = failure wrongTypeMessage →
    ∃ before p after, ps = before ++ p :: after ∧
      ((putPairs before).run (shardedStep H) s).1 = .ok okReply ∧
      ((putPairs [p]).run (shardedStep H)
        ((putPairs before).run (shardedStep H) s).2).1 = failure wrongTypeMessage
  | [], _, h => by cases h
  | p :: ps, s, h => by
    obtain ⟨u, hset | hrefused⟩ := run_putPairs_cons s p
    · rw [hset ps] at h
      obtain ⟨before, q, after, rfl, hok, hq⟩ := refused_putPairs ps u h
      refine ⟨p :: before, q, after, rfl, ?_, ?_⟩
      · rw [hset before]
        exact hok
      · rw [hset before]
        exact hq
    · refine ⟨[], p, ps, rfl, rfl, ?_⟩
      exact congrArg Prod.fst (hrefused [])

theorem handle_mset (s : Server (World Ref H) H) (fuel : ℕ) {name : Str} (hname : toUpper name = str "MSET")
    (p : Str × Str) (ps : List (Str × Str)) :
    s.handle (shardedBackend H) fuel (name :: (p :: ps).flatMap fun p => [p.1, p.2]) =
      (putPairs (p :: ps)).run (shardedStep H) s := by
  have hcmd : (handleCommand fuel (name :: (p :: ps).flatMap fun p => [p.1, p.2]) :
      ServerProg H Outcome) = putPairs (p :: ps) := by
    rw [handleCommand_core hname rfl]
    unfold runCore mset
    dsimp only
    rw [pairs_flatMap]
  unfold handle
  rw [hcmd]

/-- The refusal of an `MSET` is one of a single pair, in the state that the pairs before it have left. -/
theorem refused_mset {fuel : ℕ} {name : Str} (hname : toUpper name = str "MSET")
    (h : (s.handle (shardedBackend H) fuel (name :: rest)).1 = failure wrongTypeMessage) :
    ∃ before key val after, rest = before ++ key :: val :: after ∧
      (before = [] ∨ (s.handle (shardedBackend H) fuel (name :: before)).1 = .ok okReply) ∧
      ((s.handle (shardedBackend H) fuel (name :: before)).2.handle (shardedBackend H) fuel
        [name, key, val]).1 = failure wrongTypeMessage := by
  cases hpairs : pairs rest with
  | none =>
    have hrun : (s.handle (shardedBackend H) fuel (name :: rest)).1 = wrongNumber (str "mset") := by
      unfold handle
      rw [handleCommand_core hname rfl]
      unfold runCore mset
      dsimp only
      rw [hpairs]
      rfl
    exact absurd (hrun.symm.trans h) (wrongNumber_ne _)
  | some ps =>
    obtain rfl := eq_flatMap_of_pairs hpairs
    cases ps with
    | nil => cases hpairs
    | cons p ps =>
      rw [handle_mset s fuel hname] at h
      obtain ⟨before, ⟨key, val⟩, after, hps, hok, hlast⟩ := refused_putPairs (p :: ps) s h
      refine ⟨before.flatMap fun p => [p.1, p.2], key, val, after.flatMap fun p => [p.1, p.2], ?_, ?_⟩
      · rw [hps, List.flatMap_append]
        rfl
      · have hone := fun u : Server (World Ref H) H => handle_mset u fuel hname (key, val) []
        cases before with
        | nil =>
          have hempty : (s.handle (shardedBackend H) fuel [name]).2 = s := by
            unfold handle
            rw [handleCommand_core hname rfl]
            rfl
          refine ⟨.inl rfl, ?_⟩
          change ((s.handle (shardedBackend H) fuel [name]).2.handle _ _ _).1 = _
          rw [hempty]
          exact (congrArg Prod.fst (hone s)).trans hlast
        | cons q qs =>
          rw [handle_mset s fuel hname q qs]
          exact ⟨.inr hok, (congrArg Prod.fst (hone _)).trans hlast⟩

/-- **Refusals are sound** in the states, and for the keys, that are not misfiled. The refusal of an `MSET`
is that of one pair, after the pairs before it were set. -/
theorem refusals_sound_iff {W : Str → Str → Prop} (h : History W s) :
    (∀ key want, (∀ fuel args refusal, Tests args key want refusal →
        (s.handle (shardedBackend H) fuel args).1 = refusal → HoldsOther W s key want) ↔
      ¬ Misfiled W s key want) ∧ ∀ fuel name rest, toUpper name = str "MSET" →
      (s.handle (shardedBackend H) fuel (name :: rest)).1 = failure wrongTypeMessage →
      ∃ before key val after, rest = before ++ key :: val :: after ∧
        (before = [] ∨ (s.handle (shardedBackend H) fuel (name :: before)).1 = .ok okReply) ∧
        ((s.handle (shardedBackend H) fuel (name :: before)).2.handle (shardedBackend H) fuel
          [name, key, val]).1 = failure wrongTypeMessage := by
  have hs := h.reachable.inv
  refine ⟨fun key want => ⟨fun hsound hmis => ?_, fun hfiled fuel args refusal htests hrefused => ?_⟩,
    fun fuel name rest hname hrefused => refused_mset hname hrefused⟩
  · obtain ⟨hnot, hadmits⟩ := misfiled_iff.1 hmis
    obtain ⟨args, refusal, htests, hrefused⟩ := exists_refused hs hadmits
    exact hnot (hsound 0 args refusal htests hrefused)
  · by_contra hnot
    obtain hadmits | hvalue := htests.justified hs hrefused
    · exact hfiled (misfiled_iff.2 ⟨hnot, hadmits⟩)
    · exact hnot (.inl hvalue)

end

section Instances

open Plain

def shortLived : List Str := [str "SETEX", str "k", str "1", str "v"]

def holdingText : Server (World Ref Str) Str :=
  ((new (.init 0 0) 0).handle (shardedBackend Str) 1 shortLived).2

def afterDeadline : Server (World Ref Str) Str :=
  { holdingText with store := { holdingText.store with now := 2 * 10 ^ 9 } }

theorem not_writes_shortLived {r : Outcome} {key field : Str} : ¬ Writes shortLived r key field := by
  intro h
  cases h with
  | hset h => exact absurd h (by decide)
  | hmset h => exact absurd h (by decide)

theorem history_holdingText : History (fun _ _ => False) holdingText := by
  have h : History (H := Str) _ holdingText := (History.new 0 0).command 1 shortLived
  have hnone : (fun key field => False ∨ Writes shortLived
      ((new (.init 0 0) 0).handle (shardedBackend Str) 1 shortLived).1 key field) =
      fun _ _ => False := by
    funext key field
    exact eq_false (not_or.2 ⟨id, not_writes_shortLived⟩)
  rwa [hnone] at h

/-- The text has expired and `LPUSH` is refused: the index still has the key for a text. -/
theorem lpush_refused_after_expiry : History (fun _ _ => False) afterDeadline ∧
    Tests [str "LPUSH", str "k", str "e"] (str "k") .list (.ok wrongTypeResp) ∧
    (afterDeadline.handle (shardedBackend Str) 1 [str "LPUSH", str "k", str "e"]).1 = .ok wrongTypeResp ∧
    ¬ HoldsOther (fun _ _ => False) afterDeadline (str "k") .list := by
  refine ⟨history_holdingText.tick (2 * 10 ^ 9) (by decide +kernel),
    .extended (c := .push .left) rfl rfl rfl, by decide +kernel, ?_⟩
  have hnone : (afterDeadline.value (str "k")).isNone = true := by decide +kernel
  rintro (⟨v, hv, -⟩ | ⟨-, field, hfield, -⟩)
  · rw [hv] at hnone
    cases hnone
  · exact hfield

theorem refusals_sound_iff_setex :
    (holdingText.handle (shardedBackend Str) 1 [str "LPUSH", str "k", str "e"]).1 = .ok wrongTypeResp ∧
    HoldsOther (fun _ _ => False) holdingText (str "k") .list := by
  have hrefused : (holdingText.handle (shardedBackend Str) 1 [str "LPUSH", str "k", str "e"]).1 =
      .ok wrongTypeResp := by decide +kernel
  refine ⟨hrefused, ((refusals_sound_iff history_holdingText).1 (str "k") .list).2 ?_ 1 _ _
    (.extended (c := .push .left) rfl rfl rfl) hrefused⟩
  rintro ⟨hnot, -⟩
  refine hnot (.inl ?_)
  have hvalue : holdingText.value (str "k") = some (some (.vString (str "v"))) := by decide +kernel
  exact ⟨_, hvalue, show ¬ inferType (some (.vString (str "v"))) = .list by decide⟩

end Instances

end Wavicle.Resp3
