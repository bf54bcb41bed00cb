import Wavicle.Resp3.CommandShapes

/-! # Commands that store constants

An operation is *tame* if it appends nothing but a constant and leaves the proof cache alone.

* `tame_handleExtended`: every extended command is made of such operations, unless it `reappends` an atom. -/

namespace Wavicle.Resp3

open Lib Wavicle.Core Storage Engine Prog

variable {H : Type}

def Tame : ServerOp H → Prop
  | .store ⟨_, .appendAtom (.eConst _) _ _ _⟩ => True
  | .store ⟨_, .appendAtom _ _ _ _⟩ => False
  | .setProof _ _ | .updateProof _ _ => False
  | _ => True

theorem tame_ask (op : ServerOp H) (h : Tame op) : (ServerOp.ask op).CallsOnly Tame := callsOnly_ask h

theorem tame_of_onKey {key : Str} : ∀ {op : ServerOp H}, OnKey key op → Tame op
  | .store ⟨.given, .appendAtom (.eConst _) _ _ _⟩, _ | .store ⟨.given, .getCurrent _⟩, _
  | .store ⟨.given, .frontierPaths⟩, _ | .loadType _, _ | .storeType _ _, _ | .deleteType _, _
  | .newEConst _, _ | .newMap, _ | .newArray _, _ | .change _, _ | .now, _ | .staleRefused, _ => trivial

theorem tame_of_quiet {α : Type} {key : Str} {p : ServerProg H α} (h : p.CallsOnly (Quiet key)) :
    p.CallsOnly Tame :=
  h.mono fun _ hop => tame_of_onKey hop.1.1

theorem tame_of_updating {α : Type} {key : Str} {p : ServerProg H α} (h : p.CallsOnly (Updating key)) :
    p.CallsOnly Tame :=
  h.mono fun _ hop => tame_of_onKey hop.1

/-! ### Helpers of the handlers -/

section Helpers

variable (key : Str)

theorem tame_getCurrent : (getCurrent key : ServerProg H _).CallsOnly Tame := tame_ask _ trivial

theorem tame_frontierPaths : (frontierPaths : ServerProg H _).CallsOnly Tame := tame_ask _ trivial

theorem tame_liveAtom : (liveAtom key : ServerProg H _).CallsOnly Tame :=
  tame_of_quiet (quiet_of_peeks _ (peeks_liveAtom key))

theorem tame_curValue : (curValue key : ServerProg H _).CallsOnly Tame :=
  tame_of_quiet (quiet_of_peeks _ (peeks_curValue key))

theorem tame_assertKeyType (want : KeyType) : (assertKeyType key want : ServerProg H _).CallsOnly Tame :=
  tame_of_quiet (quiet_of_peeks _ (peeks_assertKeyType key want))

theorem tame_assertKeyTypeAgain (want : KeyType) :
    (assertKeyTypeAgain key want : ServerProg H _).CallsOnly Tame :=
  tame_of_quiet (quiet_of_peeks _ (peeks_assertKeyTypeAgain key want))

theorem tame_setKeyType (t : KeyType) : (setKeyType key t : ServerProg H _).CallsOnly Tame :=
  tame_ask _ trivial

theorem tame_putValue (v : Value Ref) : (putValue key v : ServerProg H _).CallsOnly Tame :=
  tame_of_updating (updating_putValue key v)

theorem tame_appendText (v : Value Ref) : (appendText (.eConst v) key : ServerProg H _).CallsOnly Tame :=
  callsOnly_bind (fun prev => tame_ask
    (.store ⟨.given, .appendAtom (.eConst v) key (prev.toList.map (·.hash)) zeroTime⟩) trivial)
    (tame_getCurrent key)

end Helpers

/-! ### Hashes -/

theorem tame_putHashFields (key : Str) : ∀ fields : List (Str × Str),
    (putHashFields key fields : ServerProg H Unit).CallsOnly Tame
  | [] => trivial
  | (_, _) :: fields => callsOnly_bind (fun _ => tame_putHashFields key fields) (tame_putValue _ _)

theorem tame_hmset (rest : List Str) : (hmset rest : ServerProg H Str).CallsOnly Tame := by
  cases rest with
  | nil => exact trivial
  | cons key rest =>
    unfold hmset
    dsimp only
    cases pairs rest with
    | none => exact trivial
    | some fields =>
      refine callsOnly_bind (fun ok => ?_) (tame_assertKeyTypeAgain key .hash)
      cases ok with
      | false => exact trivial
      | true =>
        refine callsOnly_bind (fun _ => ?_) (tame_putHashFields key fields)
        exact callsOnly_bind (fun _ => callsOnly_pure _ _) (tame_setKeyType key _)

theorem tame_deleteFields (key : Str) : ∀ fields : List Str,
    (deleteFields key fields : ServerProg H ℕ).CallsOnly Tame
  | [] => trivial
  | field :: fields => by
    refine callsOnly_bind (fun atom => ?_) (tame_getCurrent _)
    cases atom with
    | none => exact tame_deleteFields key fields
    | some _ =>
      refine callsOnly_bind (fun _ => ?_) (tame_of_updating (updating_putTombstone _))
      exact callsOnly_bind (fun _ => callsOnly_pure _ _) (tame_deleteFields key fields)

theorem tame_anyLive : ∀ paths : List Str, (anyLive paths : ServerProg H Bool).CallsOnly Tame
  | [] => trivial
  | p :: ps => by
    refine callsOnly_bind (fun v => ?_) (tame_curValue p)
    cases v with
    | some _ => exact trivial
    | none => exact tame_anyLive ps

theorem tame_dropEmptyHash (key : Str) : (dropEmptyHash key : ServerProg H Unit).CallsOnly Tame := by
  refine callsOnly_bind (fun t => ?_) (tame_of_quiet (quiet_of_peeks _ (peeks_keyTypeOf key)))
  split_ifs
  · refine callsOnly_bind (fun paths => ?_) tame_frontierPaths
    refine callsOnly_bind (fun remain => ?_) (tame_anyLive _)
    cases remain with
    | true => exact trivial
    | false => exact tame_ask _ trivial
  · exact trivial

theorem tame_hdel (rest : List Str) : (hdel rest : ServerProg H Str).CallsOnly Tame := by
  unfold hdel
  split
  · refine callsOnly_bind (fun _ => ?_) (tame_deleteFields _ _)
    exact callsOnly_bind (fun _ => callsOnly_pure _ _) (tame_dropEmptyHash _)
  · exact trivial

section Reads

variable [Floats]

theorem tame_hashReplies (key : Str) : ∀ fields : List Str,
    (hashReplies key fields : ServerProg H Str).CallsOnly Tame
  | [] => trivial
  | _ :: fields => callsOnly_bind (fun _ =>
      callsOnly_bind (fun _ => callsOnly_pure _ _) (tame_hashReplies key fields)) (tame_curValue _)

theorem tame_gatherFields (childPrefix : Str) : ∀ paths : List Str,
    (gatherFields childPrefix paths : ServerProg H _).CallsOnly Tame
  | [] => trivial
  | p :: ps => callsOnly_bind (fun _ =>
      callsOnly_bind (fun _ => callsOnly_pure _ _) (tame_gatherFields childPrefix ps)) (tame_curValue p)

theorem tame_hashFields (key : Str) : (hashFields key : ServerProg H _).CallsOnly Tame :=
  callsOnly_bind (fun _ => tame_gatherFields _ _) tame_frontierPaths

end Reads

/-! ### The key space -/

theorem tame_listKeys (keyPrefix : Str) : ∀ paths : List Str,
    (listKeys keyPrefix paths : ServerProg H (List Str)).CallsOnly Tame
  | [] => trivial
  | p :: ps => by
    have hlisted : (listedKey p : ServerProg H Str).CallsOnly Tame := by
      unfold listedKey
      cases beforeLast 58 p with
      | none => exact trivial
      | some parent =>
        refine callsOnly_bind (fun isHash => ?_) ?_
        · cases isHash <;> exact trivial
        · exact callsOnly_bind (fun _ => callsOnly_pure _ _) (tame_ask (.loadType parent) trivial)
    exact callsOnly_bind (fun _ =>
      callsOnly_bind (fun _ => callsOnly_pure _ _) (tame_listKeys keyPrefix ps)) hlisted

theorem tame_matchingKeys (pat : Str) : (matchingKeys pat : ServerProg H _).CallsOnly Tame :=
  callsOnly_bind (fun _ => callsOnly_bind (fun _ => callsOnly_pure _ _) (tame_listKeys _ _))
    tame_frontierPaths

theorem tame_putTombstones : ∀ paths : List Str,
    (putTombstones paths : ServerProg H Unit).CallsOnly Tame
  | [] => trivial
  | p :: ps => callsOnly_bind (fun _ => tame_putTombstones ps) (tame_of_updating (updating_putTombstone p))

theorem tame_flushdb : (flushdb : ServerProg H Str).CallsOnly Tame := by
  refine callsOnly_bind (fun paths => ?_) tame_frontierPaths
  refine callsOnly_bind (fun _ => ?_) (tame_putTombstones paths)
  exact callsOnly_bind (fun _ => callsOnly_pure _ _) (tame_ask .clearTypes trivial)

/-! ### Extended commands -/

def reappends : ExtendedCommand → Bool
  | .pexpire | .persist => true
  | _ => false

section Extended

variable [Floats] [Spaces] [Printing] [Unicode] [Runtime]

def isValueRead : ExtendedCommand → Bool
  | .strlen | .llen | .lrange | .lindex | .smembers | .scard | .sismember | .zscore | .zcard | .zrange
  | .xlen | .xrange => true
  | _ => false

variable {cmd : ExtendedCommand}

theorem tame_of_isValueRead (h : isValueRead cmd = true) (rest : List Str) :
    (handleExtended cmd rest : ServerProg H Str).CallsOnly Tame := by
  cases cmd
  all_goals first | exact absurd h Bool.false_ne_true | unfold handleExtended
  -- the value is read, and all that follows is the reply
  all_goals dsimp only
  all_goals first
    | unfold strlen | unfold llen | unfold lrange | unfold lindex | unfold smembers | unfold scard
    | unfold sismember | unfold zscore | unfold zcard | unfold zrange | unfold xrange
  all_goals
    split
    · refine callsOnly_bind (fun v => ?_) (tame_curValue _)
      repeat' split
      all_goals exact callsOnly_pure _ _
    · exact callsOnly_pure _ _

theorem tame_of_isKeyWrite (h : isKeyWrite cmd = true) (rest : List Str) :
    (handleExtended cmd rest : ServerProg H Str).CallsOnly Tame := by
  cases rest with
  | nil =>
    rw [handleExtended_nil h]
    exact callsOnly_pure _ _
  | cons key rest =>
    exact (conforms_handleExtended h key rest).callsOnly.mono fun _ hop => tame_of_onKey hop

section

omit [Floats] [Spaces] [Printing] [Unicode] [Runtime]

theorem tame_typeCommand (rest : List Str) : (typeCommand rest : ServerProg H Str).CallsOnly Tame := by
  unfold typeCommand
  split
  · refine callsOnly_bind (fun v => ?_) (tame_curValue _)
    cases v with
    | some v => exact callsOnly_pure _ _
    | none =>
      refine callsOnly_bind (fun paths => ?_) tame_frontierPaths
      split_ifs <;> exact callsOnly_pure _ _
  · exact callsOnly_pure _ _

theorem tame_pttl (rest : List Str) : (pttl rest : ServerProg H Str).CallsOnly Tame := by
  unfold pttl
  split
  · refine callsOnly_bind (fun atom => ?_) (tame_liveAtom _)
    cases atom with
    | none => exact callsOnly_pure _ _
    | some cur =>
      dsimp only
      split_ifs
      · exact callsOnly_pure _ _
      · exact callsOnly_bind (fun _ => callsOnly_pure _ _) (tame_ask .now trivial)
  · exact callsOnly_pure _ _

theorem tame_info : (info : ServerProg H Str).CallsOnly Tame :=
  callsOnly_bind (fun _ => callsOnly_bind (fun _ => callsOnly_pure _ _) tame_frontierPaths)
    (tame_ask .uptime trivial)

end

omit [Spaces] [Printing] [Unicode] [Runtime] in
theorem tame_hashRead {key : Str} {reply : List (Str × Str) → Str} :
    (do let fields ← hashFields key; pure (reply fields) : ServerProg H Str).CallsOnly Tame :=
  callsOnly_bind (fun _ => callsOnly_pure _ _) (tame_hashFields key)

theorem tame_handleExtended (h : reappends cmd = false) (rest : List Str) :
    (handleExtended cmd rest : ServerProg H Str).CallsOnly Tame := by
  by_cases hwrite : isKeyWrite cmd = true
  · exact tame_of_isKeyWrite hwrite rest
  by_cases hread : isValueRead cmd = true
  · exact tame_of_isValueRead hread rest
  cases cmd
  case hmset => exact tame_hmset rest
  case hdel => exact tame_hdel rest
  case hmget =>
    change (hmget rest).CallsOnly Tame
    unfold hmget
    split
    · exact callsOnly_bind (fun _ => callsOnly_pure _ _) (tame_hashReplies _ _)
    · exact callsOnly_pure _ _
  case hlen =>
    cases rest with
    | nil => exact callsOnly_pure _ _
    | cons key rest => exact tame_hashRead
  case hexists =>
    change (hexists rest).CallsOnly Tame
    unfold hexists
    split
    · exact tame_hashRead
    · exact callsOnly_pure _ _
  case hkeys =>
    cases rest with
    | nil => exact callsOnly_pure _ _
    | cons key rest => exact tame_hashRead
  case hvals =>
    cases rest with
    | nil => exact callsOnly_pure _ _
    | cons key rest => exact tame_hashRead
  case type => exact tame_typeCommand rest
  case keys =>
    cases rest with
    | nil => exact callsOnly_pure _ _
    | cons pat rest => exact callsOnly_bind (fun _ => callsOnly_pure _ _) (tame_matchingKeys pat)
  case scan => exact callsOnly_bind (fun _ => callsOnly_pure _ _) (tame_matchingKeys _)
  case info => exact tame_info
  case hello => exact callsOnly_pure _ _
  case client => exact callsOnly_pure _ _
  case flushdb => exact tame_flushdb
  case pttl => exact tame_pttl rest
  case eval => exact callsOnly_pure _ _
  all_goals first | exact absurd rfl hwrite | exact absurd rfl hread | cases h

end Extended

/-! ### Core commands -/

variable (rest : List Str)

theorem tame_set : (set rest : ServerProg H Outcome).CallsOnly Tame := by
  unfold set
  split
  · refine callsOnly_bind (fun ok => ?_) (tame_assertKeyType _ _)
    cases ok with
    | false => exact callsOnly_pure _ _
    | true =>
      refine callsOnly_bind (fun v => ?_) (tame_ask (.newEConst _) trivial)
      refine callsOnly_bind (fun r => ?_) (tame_appendText _ v)
      cases r with
      | error msg => exact callsOnly_pure _ _
      | ok _ => exact callsOnly_bind (fun _ => callsOnly_pure _ _) (tame_setKeyType _ _)
  · exact callsOnly_pure _ _

theorem tame_putPairs : ∀ ps : List (Str × Str), (putPairs ps : ServerProg H Outcome).CallsOnly Tame
  | [] => callsOnly_pure _ _
  | (path, val) :: ps => by
    refine callsOnly_bind (fun ok => ?_) (tame_assertKeyType path _)
    cases ok with
    | false => exact callsOnly_pure _ _
    | true =>
      refine callsOnly_bind (fun r => ?_) (tame_appendText path (.vString val))
      cases r with
      | error msg => exact callsOnly_pure _ _
      | ok _ => exact callsOnly_bind (fun _ => tame_putPairs ps) (tame_setKeyType path _)

theorem tame_mset : (mset rest : ServerProg H Outcome).CallsOnly Tame := by
  unfold mset
  cases pairs rest with
  | none => exact callsOnly_pure _ _
  | some ps => exact tame_putPairs ps

theorem tame_hset : (hset rest : ServerProg H Outcome).CallsOnly Tame := by
  unfold hset
  split
  · rename_i key field val _
    refine callsOnly_bind (fun ok => ?_) (tame_assertKeyTypeAgain key _)
    cases ok with
    | false => exact callsOnly_pure _ _
    | true =>
      refine callsOnly_bind (fun r => ?_) (tame_appendText (fieldPath key field) (.vString val))
      cases r with
      | error msg => exact callsOnly_pure _ _
      | ok _ => exact callsOnly_bind (fun _ => callsOnly_pure _ _) (tame_setKeyType key _)
  · exact callsOnly_pure _ _

theorem tame_deletePaths : ∀ paths : List Str, (deletePaths paths : ServerProg H ℕ).CallsOnly Tame
  | [] => callsOnly_pure _ _
  | path :: paths => by
    refine callsOnly_bind (fun prev => ?_) (tame_getCurrent path)
    cases prev with
    | none => exact tame_deletePaths paths
    | some prev =>
      refine callsOnly_bind (fun r => ?_)
        (tame_ask (.store ⟨.given, .appendAtom (.eConst .vNull) path [prev.hash] zeroTime⟩) trivial)
      cases r with
      | error msg => exact tame_deletePaths paths
      | ok _ =>
        refine callsOnly_bind (fun _ => ?_) (tame_ask (.deleteType path) trivial)
        exact callsOnly_bind (fun _ => callsOnly_pure _ _) (tame_deletePaths paths)

theorem tame_countLive : ∀ paths : List Str, (countLive paths : ServerProg H ℕ).CallsOnly Tame
  | [] => callsOnly_pure _ _
  | path :: paths => callsOnly_bind (fun _ =>
      callsOnly_bind (fun _ => callsOnly_pure _ _) (tame_countLive paths)) (tame_liveAtom path)

theorem tame_dbsize : (dbsize : ServerProg H Outcome).CallsOnly Tame :=
  callsOnly_bind (fun _ => callsOnly_bind (fun _ => callsOnly_pure _ _) (tame_countLive _))
    tame_frontierPaths

theorem tame_ttl : (ttl rest : ServerProg H Outcome).CallsOnly Tame := by
  unfold ttl
  split
  · refine callsOnly_bind (fun atom => ?_) (tame_liveAtom _)
    cases atom with
    | none => exact callsOnly_pure _ _
    | some current =>
      dsimp only
      split_ifs
      · exact callsOnly_pure _ _
      · exact callsOnly_bind (fun _ => callsOnly_pure _ _) (tame_ask .now trivial)
  · exact callsOnly_pure _ _

theorem tame_livePaths : ∀ paths : List Str, (livePaths paths : ServerProg H _).CallsOnly Tame
  | [] => callsOnly_pure _ _
  | path :: paths => callsOnly_bind (fun _ =>
      callsOnly_bind (fun _ => callsOnly_pure _ _) (tame_livePaths paths)) (tame_liveAtom path)

end Wavicle.Resp3
