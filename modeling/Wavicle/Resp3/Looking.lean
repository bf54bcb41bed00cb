import Wavicle.Resp3.CachedReads
import Wavicle.Storage.Listings

/-! # Programs that only look

A read moves atoms in the order of eviction and proofs in the cache of proofs; what the server holds stays as it
is: `s.Same t`. `Finds s p Q` says that `p` changes no more than that and that its result is in `Q`. -/

namespace Wavicle.Resp3

open Lib Wavicle.Core Storage Engine Prog

variable {H : Type} [DecidableEq H] [Hashing H] {s t u : Server (World Ref H) H} {α : Type}

/-- The servers show the same entries, types and constants at the same time; the order of use may differ. -/
structure Server.Same (s t : Server (World Ref H) H) : Prop where
  resident : t.store.cache.resident = s.store.cache.resident
  now : t.store.now = s.store.now
  log : t.store.log = s.store.log
  inv : s.store.Inv → t.store.Inv
  types : ∀ key, t.keyTypes.lookup key = s.keyTypes.lookup key
  interned : t.interned = s.interned
  stale : t.stale = s.stale

theorem Server.Same.refl (s : Server (World Ref H) H) : s.Same s :=
  ⟨rfl, rfl, rfl, id, fun _ => rfl, rfl, rfl⟩

theorem Server.Same.trans (h : s.Same t) (h' : t.Same u) : s.Same u where
  resident := h'.resident.trans h.resident
  now := h'.now.trans h.now
  log := h'.log.trans h.log
  inv hs := h'.inv (h.inv hs)
  types key := (h'.types key).trans (h.types key)
  interned := h'.interned.trans h.interned
  stale := h'.stale.trans h.stale

theorem Server.Same.current (h : s.Same t) : t.store.current = s.store.current := by
  funext path
  unfold World.current ShardedFrontierCache.current
  rw [h.resident, h.now]

theorem Server.Same.frontierPaths (h : s.Same t) (hs : s.store.Inv) :
    (t.store.cache.frontierPaths t.store.now).Perm (s.store.cache.frontierPaths s.store.now) := by
  refine World.perm_frontierPaths (h.inv hs) hs fun path => ?_
  unfold ShardedFrontierCache.listed
  rw [h.resident, h.now]

def Looks : ServerOp H → Prop
  | .store ⟨_, .appendAtom _ _ _ _⟩ | .storeType _ _ | .deleteType _ | .clearTypes | .newEConst _
  | .newECompose _ | .change _ => False
  | _ => True

theorem Server.same_step (s : Server (World Ref H) H) : ∀ {op : ServerOp H}, Looks op →
    s.Same (s.step (shardedBackend H) op).2
  | .store ⟨via, .getCurrent path⟩, _ =>
    ⟨s.store.resident_getCurrent path, rfl, rfl, fun hs => hs.call ⟨via, .getCurrent path⟩,
      fun _ => rfl, rfl, rfl⟩
  | .store ⟨_, .getAtom _⟩, _ | .store ⟨_, .frontierPaths⟩, _
  | .store ⟨_, .verifyVersionVector _⟩, _ | .store ⟨_, .getCurrentHash _⟩, _
  | .store ⟨_, .findChangedPaths _⟩, _ | .loadType _, _ | .getProof _, _ | .setProof _ _, _
  | .updateProof _ _, _ | .newMap, _ | .newArray _, _ | .now, _ | .staleRefused, _ | .uptime, _ =>
    ⟨rfl, rfl, rfl, id, fun _ => rfl, rfl, rfl⟩

/-- The program only looks, from a server that holds what `s` holds, and its result is in `Q`. -/
abbrev Finds (s : Server (World Ref H) H) (p : ServerProg H α) (Q : α → Prop) : Prop :=
  Keeps (Server.step (shardedBackend H)) s.Same p Q

theorem finds_of_looks {p : ServerProg H α} (h : p.CallsOnly Looks) : Finds s p fun _ => True :=
  keeps_of_callsOnly (fun t _ ht hop => ht.trans (t.same_step hop)) h

theorem finds_ask (op : ServerOp H) (hop : Looks op) {Q : op.Res → Prop}
    (h : ∀ t, s.Same t → Q (t.step (shardedBackend H) op).1) : Finds s (ServerOp.ask op) Q :=
  fun t ht => ⟨ht.trans (t.same_step hop), h t ht⟩

theorem finds_getCurrent (path : Str) : Finds s (getCurrent path) (· = s.store.current path) := by
  refine finds_ask (.store ⟨.given, .getCurrent path⟩) trivial fun t ht => ?_
  have hanswer := World.shows_view.answer t.store ⟨.given, .getCurrent path⟩ trivial trivial
  exact hanswer.trans (congrFun ht.current path)

/-- The atom of a path that is no tombstone and has not passed its deadline. -/
def Server.live (s : Server (World Ref H) H) (path : Str) : Option (CausalAtom Ref H) :=
  (s.store.current path).filter fun a => !isTombstone a

/-- The live value of a path, as `curValue` returns it. -/
def Server.value (s : Server (World Ref H) H) (path : Str) : Option (Option (Value Ref)) :=
  (s.live path).map fun a => a.expr.constValue

theorem finds_liveAtom (path : Str) : Finds s (liveAtom path) (· = s.live path) := by
  refine (finds_getCurrent path).bind fun atom hatom => keeps_pure ?_
  rw [hatom]
  rfl

theorem finds_curValue (path : Str) : Finds s (curValue path) (· = s.value path) := by
  refine (finds_liveAtom path).bind fun atom hatom => keeps_pure ?_
  rw [hatom]
  rfl

theorem finds_frontierPaths (hs : s.store.Inv) : Finds s frontierPaths
    fun paths => paths.Perm (s.store.cache.frontierPaths s.store.now) :=
  finds_ask (.store ⟨.given, .frontierPaths⟩) trivial fun _ ht => ht.frontierPaths hs

theorem finds_loadType (key : Str) : Finds s (ServerOp.ask (.loadType key)) (· = s.keyTypes.lookup key) :=
  finds_ask (.loadType key) trivial fun _ ht => ht.types key

/-! ### Counting -/

/-- Whether a path has an atom that is no tombstone. -/
def isLive (current : Str → Option (CausalAtom Ref H)) (path : Str) : Bool :=
  (current path).any fun a => !isTombstone a

theorem keeps_liveAtom_current (current : Str → Option (CausalAtom Ref H)) (path : Str) :
    Keeps (shardedStep H) (fun s => s.store.current = current) (liveAtom path)
      fun atom => atom.isSome = isLive current path := by
  intro s hs
  rw [run_liveAtom]
  refine ⟨?_, ?_⟩
  · have hsame := ShardedFrontierCache.same_getCurrent s.store.cache s.store.now path
    exact (hsame.current s.store.now).trans hs
  · unfold isLive
    rw [← hs]
    cases s.store.current path with
    | none => rfl
    | some a => cases htomb : isTombstone a <;> simp [htomb]

theorem keeps_countLive (current : Str → Option (CausalAtom Ref H)) : ∀ paths : List Str,
    Keeps (shardedStep H) (fun s => s.store.current = current) (countLive paths)
      (· = paths.countP (isLive current))
  | [] => keeps_pure rfl
  | path :: paths => by
    refine (keeps_liveAtom_current current path).bind fun atom hatom =>
      (keeps_countLive current paths).bind fun n hn => keeps_pure ?_
    rw [hn, hatom, List.countP_cons]
    split_ifs <;> rfl

/-! ### The type of a key -/

/-- The second part of `keyTypeOf`. -/
def untypedKey (key : Str) : ServerProg H (Option KeyType) := do
  match ← curValue key with
  | some v => do
    setKeyType key (inferType v)
    pure (some (inferType v))
  | none => do
    let paths ← frontierPaths
    let childPrefix := key ++ str ":"
    if paths.any fun p => childPrefix.length < p.length ∧ hasPrefix p childPrefix then do
      setKeyType key .hash
      pure (some .hash)
    else pure none

omit [DecidableEq H] [Hashing H] in
theorem keyTypeOf_eq (key : Str) : (keyTypeOf key : ServerProg H (Option KeyType)) =
    ServerOp.ask (.loadType key) >>= fun
      | some t => pure (some t)
      | none => untypedKey key := by
  refine congrArg (ServerOp.ask (.loadType key) >>= ·) (funext fun t => ?_)
  cases t <;> rfl

def isBelow (key path : Str) : Bool :=
  (key ++ str ":").length < path.length ∧ hasPrefix path (key ++ str ":")

def Server.hasBelow (s : Server (World Ref H) H) (key : Str) : Bool :=
  (s.store.cache.frontierPaths s.store.now).any (isBelow key)

/-- The type that `keyTypeOf` infers. -/
def Server.inferred (s : Server (World Ref H) H) (key : Str) : Option KeyType :=
  match s.value key with
  | some v => some (inferType v)
  | none => if s.hasBelow key then some .hash else none

/-- The type that `keyTypeOf` returns. -/
def Server.typeOf (s : Server (World Ref H) H) (key : Str) : Option KeyType :=
  (s.keyTypes.lookup key).or (s.inferred key)

/-- The server after `keyTypeOf`. -/
def Server.recorded (s : Server (World Ref H) H) (key : Str) : Server (World Ref H) H :=
  { s with keyTypes := (s.typeOf key).elim s.keyTypes (s.keyTypes.insert key) }

omit [DecidableEq H] in
theorem Server.lookup_recorded (s : Server (World Ref H) H) (key k : Str) :
    (s.recorded key).keyTypes.lookup k = if k = key then s.typeOf key else s.keyTypes.lookup k := by
  unfold Server.recorded
  cases htype : s.typeOf key with
  | some t =>
    rw [Option.elim_some, GoMap.lookup_insert]
  | none =>
    obtain ⟨hnone, -⟩ := Option.or_eq_none_iff.1 htype
    split_ifs with hk
    · rw [hk]
      exact hnone
    · rfl

theorem Server.same_recorded {key : Str} {types : GoMap Str KeyType} (h : s.Same t)
    (htypes : ∀ k, types.lookup k = if k = key then s.typeOf key else s.keyTypes.lookup k) :
    (s.recorded key).Same { t with keyTypes := types } :=
  ⟨h.resident, h.now, h.log, h.inv, fun k => (htypes k).trans (s.lookup_recorded key k).symm,
    h.interned, h.stale⟩

/-- **`keyTypeOf`** returns the type of the key and leaves it in the index. -/
theorem ends_keyTypeOf (hs : s.store.Inv) (ht : s.Same t) (key : Str) :
    Ends (shardedStep H) (keyTypeOf key) t fun r u => r = s.typeOf key ∧ (s.recorded key).Same u := by
  -- a type that was not in the index is put there, and one that was stays
  have hput : ∀ want u, s.keyTypes.lookup key = none → s.inferred key = some want → s.Same u →
      some want = s.typeOf key ∧
        (s.recorded key).Same { u with keyTypes := u.keyTypes.insert key want } := by
    intro want u hnone hwant hu
    have htype : s.typeOf key = some want := by
      unfold Server.typeOf
      rw [hnone, Option.none_or, hwant]
    refine ⟨htype.symm, Server.same_recorded hu fun k => ?_⟩
    rw [GoMap.lookup_insert, htype, hu.types]
  have hstay : ∀ u, s.typeOf key = s.keyTypes.lookup key → s.Same u → (s.recorded key).Same u := by
    intro u htype hu
    refine Server.same_recorded hu fun k => ?_
    rw [hu.types]
    split_ifs with hk
    · rw [hk, htype]
    · rfl
  rw [keyTypeOf_eq]
  refine ((finds_loadType key).ends ht).bind fun known u ⟨hknown, hu⟩ => ?_
  cases known with
  | some want =>
    have htype : s.typeOf key = some want := by
      unfold Server.typeOf
      rw [← hknown, Option.some_or]
    exact ⟨htype.symm, hstay u (htype.trans hknown) hu⟩
  | none =>
    refine ((finds_curValue key).ends hu).bind fun v u' ⟨hv, hu'⟩ => ?_
    cases v with
    | some v =>
      refine hput (inferType v) u' hknown.symm ?_ hu'
      unfold Server.inferred
      rw [← hv]
    | none =>
      refine ((finds_frontierPaths hs).ends hu').bind fun paths u'' ⟨hpaths, hu''⟩ => ?_
      have hbelow : s.inferred key = if paths.any (isBelow key) then some .hash else none := by
        unfold Server.inferred Server.hasBelow
        rw [← hv, hpaths.any_eq]
      dsimp only
      split_ifs with hany
      · exact hput .hash u'' hknown.symm (hbelow.trans (if_pos hany)) hu''
      · have htype : s.typeOf key = none := by
          unfold Server.typeOf
          rw [← hknown, hbelow.trans (if_neg hany), Option.none_or]
        exact ⟨htype.symm, hstay u'' (htype.trans hknown) hu''⟩

/-- Where a value of type `want` may be written. -/
def Server.admits (s : Server (World Ref H) H) (key : Str) (want : KeyType) : Bool :=
  s.typeOf key = none ∨ s.typeOf key = some want

theorem ends_assertKeyType (hs : s.store.Inv) (key : Str) (want : KeyType) :
    Ends (shardedStep H) (assertKeyType key want) s
      fun r u => r = s.admits key want ∧ (s.recorded key).Same u := by
  refine (ends_keyTypeOf hs (.refl s) key).bind fun r u ⟨hr, hu⟩ => ends_pure ⟨?_, hu⟩
  rw [hr]
  rfl

omit [DecidableEq H] in
theorem Server.typeOf_recorded (s : Server (World Ref H) H) {key : Str} {t : KeyType}
    (h : s.typeOf key = some t) : (s.recorded key).typeOf key = some t := by
  have hlookup : (s.recorded key).keyTypes.lookup key = some t := by
    rw [s.lookup_recorded, if_pos rfl, h]
  unfold Server.typeOf
  rw [hlookup, Option.some_or]

theorem ends_assertKeyTypeAgain (hs : s.store.Inv) (key : Str) (want : KeyType) :
    Ends (shardedStep H) (assertKeyTypeAgain key want) s
      fun r u => r = s.admits key want ∧ (s.recorded key).Same u := by
  refine (ends_assertKeyType hs key want).bind fun r u ⟨hr, hu⟩ => ?_
  cases hadmits : s.admits key want with
  | true =>
    rw [hr, hadmits]
    exact ends_pure ⟨rfl, hu⟩
  | false =>
    rw [hr, hadmits]
    have hnot : ¬ (s.typeOf key = none ∨ s.typeOf key = some want) := of_decide_eq_false hadmits
    obtain ⟨t, ht⟩ := Option.ne_none_iff_exists'.1 (not_or.1 hnot).1
    have hs' : (s.recorded key).store.Inv := hs
    refine (ends_keyTypeOf hs' hu key).bind fun r' u' ⟨hr', hu'⟩ => ends_pure ⟨?_, ?_⟩
    · rw [hr', s.typeOf_recorded ht]
      rfl
    · refine (Server.Same.mk rfl rfl rfl id (fun k => ?_) rfl rfl :
        (s.recorded key).Same ((s.recorded key).recorded key)).trans hu'
      rw [Server.lookup_recorded, s.typeOf_recorded ht, s.lookup_recorded, ht]
      split_ifs <;> rfl

end Wavicle.Resp3
