import Wavicle.Resp3.HashCommands

/-! # Hash commands implement maps

Commands on hashes in `KH`, interleaved with `SET`, `GET` and `DEL` of plain keys in `KP`, answer as maps if the
keys are separate (`hashes_answer`), no write evicts anything, no field is set to the text of one zero byte, and
`HDEL` names no field that has been deleted before. Reads go through the cache of proofs, so no two paths may
have the same query hash. -/

namespace Wavicle.Resp3

open Lib Wavicle.Core Storage Engine Prog

section

variable {H : Type} [DecidableEq H] [Hashing H] [Floats] [Spaces] [Printing] [Unicode] [Runtime]
  {KH KP : Set Str} {m : Hashes} {s t u : Server (World Ref H) H}

/-! ### Plain keys -/

section

omit [Floats] [Spaces] [Printing] [Unicode] [Runtime]

theorem yields_plainText (hs : Represents KH m s) (hsep : Separate KH KP) {p : Str} (hp : p ∈ KP)
    {e : Expr Ref H} (he : HoldsText e) (parents : List H) :
    Yields s (appendAtom e p parents zeroTime) fun _ u => Represents KH m u := by
  refine endsIf_ask fun hok => hs.append_plain hsep hp he ?_
  exact Bool.not_eq_eq_eq_not.1 hok

theorem yields_setString (hs : Represents KH m s) (hsep : Separate KH KP) {p : Str} (hp : p ∈ KP) :
    Yields s (setKeyType p .string) fun _ u => Represents KH m u := by
  refine endsIf_ask fun _ => hs.withTypes fun k hk type htype => ?_
  rw [GoMap.lookup_insert, if_neg (hsep.plain k hk p hp).1.symm] at htype
  exact hs.types k hk type htype

theorem yields_set (hs : Represents KH m s) (hsep : Separate KH KP) {rest : List Str}
    (h : ∀ k ∈ rest.head?, k ∈ KP) : Yields s (set rest) fun _ u => Represents KH m u := by
  unfold set
  split
  · rename_i p text _
    have hp : p ∈ KP := h p rfl
    refine (ends_assertKeyType hs.inv p .string).endsIf.bind fun ok u hok => ?_
    have hu := (hs.recorded p).same hok.2
    split_ifs
    · refine (yields_newText hu text).bind fun v u' hnew => ?_
      obtain ⟨rfl, hu'⟩ := hnew
      have happend : Yields u' (appendText (.eConst (.vString text)) p) fun _ w => Represents KH m w :=
        ((finds_getCurrent p).yields hu').bind fun _ _ hw =>
          yields_plainText hw.2 hsep hp (.inr ⟨text, rfl⟩) _
      refine happend.bind fun r w hw => ?_
      cases r with
      | error _ => exact fun _ => hw
      | ok _ => exact (yields_setString hw hsep hp).bind fun _ _ hw' _ => hw'
    · exact fun _ => hu
  · exact fun _ => hs

theorem yields_deletePaths (hsep : Separate KH KP) {paths : List Str} (h : ∀ p ∈ paths, p ∈ KP)
    (hs : Represents KH m s) : Yields s (deletePaths paths) fun _ u => Represents KH m u := by
  induction paths generalizing s with
  | nil => exact fun _ => hs
  | cons p paths ih =>
    have ih' := fun {s} => @ih s (List.forall_mem_cons.1 h).2
    refine ((finds_getCurrent p).yields hs).bind fun prev u ⟨_, hu⟩ => ?_
    cases prev with
    | none => exact ih' hu
    | some prev =>
      refine (yields_plainText hu hsep (h p (.head _)) (.inl rfl) _).bind fun r u' hu' => ?_
      cases r with
      | error _ => exact ih' hu'
      | ok _ =>
        exact (yields_delKeyType hu' p).bind fun _ _ hw => (ih' hw).bind fun _ _ hw' _ => hw'

end

abbrev KeepsMaps (KH : Set Str) (m : Hashes) {α : Type} (p : ServerProg H α) : Prop :=
  Keeps (Server.step (shardedBackend H)) (Represents KH m) p fun _ => True

omit [Floats] [Spaces] [Printing] [Unicode] [Runtime] in
theorem keepsMaps_of_looks {α : Type} {p : ServerProg H α} (h : p.CallsOnly Looks) : KeepsMaps KH m p :=
  fun s hs => ⟨hs.same (finds_of_looks h s (.refl s)).1, trivial⟩

omit [Floats] [Spaces] [Printing] [Unicode] [Runtime] in
theorem keepsMaps_newECompose (atoms : List H) :
    KeepsMaps KH m (ServerOp.ask (.newECompose atoms) : ServerProg H _) :=
  fun _ hs => ⟨hs.intern (fun _ h => by cases h), trivial⟩

omit [DecidableEq H] [Hashing H] [Floats] [Spaces] [Printing] [Unicode] [Runtime] in
theorem looks_liveAtom (path : Str) : (liveAtom path : ServerProg H _).CallsOnly Looks :=
  callsOnly_bind (fun _ => callsOnly_pure _ _)
    (looks_ask (.store ⟨.given, .getCurrent path⟩) trivial)

omit [DecidableEq H] [Floats] [Spaces] [Unicode] [Runtime] in
theorem looks_getPath (fuel : ℕ) (path : Str) :
    (getPath fuel path : ServerProg H Outcome).CallsOnly Looks := by
  refine callsOnly_bind (fun atom => ?_) (looks_liveAtom path)
  cases atom with
  | none => exact callsOnly_pure _ _
  | some _ => exact looks_readProof fuel path

omit [Floats] [Runtime] in
theorem keepsMaps_get (fuel : ℕ) (rest : List Str) :
    KeepsMaps KH m (get fuel rest : ServerProg H Outcome) := by
  cases rest with
  | nil => exact keeps_pure trivial
  | cons path rest =>
    unfold get
    dsimp only
    split_ifs
    · refine (keepsMaps_of_looks (looks_onStore (reads_sqlToProofTree path))).bind fun r _ => ?_
      rcases r with f | ⟨atoms, primary⟩
      · cases f with
        | error msg => exact keepsMaps_of_looks (looks_getPath fuel path)
        | _ => exact keeps_pure trivial
      · refine (keepsMaps_newECompose atoms).bind fun expr _ => ?_
        refine (keepsMaps_of_looks (looks_readCached fuel primary)).bind fun r _ => ?_
        rcases r with f | (_ | reply)
        · exact keeps_pure trivial
        · have hquery : KeepsMaps KH m (readQuery fuel expr : ServerProg H _) :=
            (keepsMaps_of_looks (looks_onStore (reads_reduceProofTree fuel expr))).bind
              fun _ _ => keeps_pure trivial
          refine hquery.bind fun r _ => ?_
          rcases r with f | (_ | reply)
          · exact keeps_pure trivial
          · exact keepsMaps_of_looks (looks_getPath fuel primary)
          · exact keeps_pure trivial
        · exact keeps_pure trivial
    · exact keepsMaps_of_looks (looks_getPath fuel path)

/-- `SET` and `DEL` of plain keys, and `GET` of any key. -/
inductive PlainCommand (KP : Set Str) : List Str → Prop where
  | set {name : Str} {rest : List Str} (hname : toUpper name = str "SET")
      (hkey : ∀ k ∈ rest.head?, k ∈ KP) : PlainCommand KP (name :: rest)
  | get {name : Str} (rest : List Str) (hname : toUpper name = str "GET") :
      PlainCommand KP (name :: rest)
  | del {name : Str} {rest : List Str} (hname : toUpper name = str "DEL")
      (hkeys : ∀ k ∈ rest, k ∈ KP) : PlainCommand KP (name :: rest)

theorem yields_plain (hs : Represents KH m s) (hsep : Separate KH KP) (fuel : ℕ) {args : List Str}
    (h : PlainCommand KP args) : Yields s (handleCommand fuel args) fun _ u => Represents KH m u := by
  cases h with
  | set hname hkey =>
    rw [handleCommand_core hname (show _ = some .set by decide)]
    exact yields_set hs hsep hkey
  | get rest hname =>
    rw [handleCommand_core hname (show _ = some .get by decide)]
    exact yields_unlessStale hs.healthy (((keepsMaps_get fuel rest).ends hs).mono fun _ _ h => h.2).endsIf
  | @del name rest hname hkeys =>
    rw [handleCommand_core hname (show _ = some .del by decide)]
    cases rest with
    | nil => exact fun _ => hs
    | cons => exact (yields_deletePaths hsep hkeys hs).bind fun _ _ hu _ => hu

/-! ### Runs -/

/-- One step of the maps and of the server together: a command on a hash in `KH`, one on plain keys in
`KP`, the passing of time, or a sweep. No step evicts anything. -/
inductive HashStep (KH KP : Set Str) (x : Hashes × Server (World Ref H) H) :
    Hashes × Server (World Ref H) H → Prop where
  | hash (fuel : ℕ) {name : Str} {c : HashCommand} (hname : toUpper name = c.name)
      (hkey : c.key ∈ KH) (hfits : c.Fits x.2)
      (hroom : (handleCommand fuel (name :: c.key :: c.more)).passes
        (Server.step (shardedBackend H)) evictsNothing x.2 = true) :
      HashStep KH KP x (c.next x.1, (x.2.handle (shardedBackend H) fuel (name :: c.key :: c.more)).2)
  | plain (fuel : ℕ) {args : List Str} (h : PlainCommand KP args)
      (hroom : (handleCommand fuel args).passes
        (Server.step (shardedBackend H)) evictsNothing x.2 = true) :
      HashStep KH KP x (x.1, (x.2.handle (shardedBackend H) fuel args).2)
  | tick (now : Time) (h : x.2.store.now ≤ now) :
      HashStep KH KP x (x.1, { x.2 with store := { x.2.store with now := now } })
  | sweep : HashStep KH KP x (x.1,
      { x.2 with store := { x.2.store with cache := x.2.store.cache.sweepExpired x.2.store.now } })

/-- The maps and the server that a run from a new server can reach. -/
def HashReachable (KH KP : Set Str) (m : Hashes) (s : Server (World Ref H) H) : Prop :=
  ∃ maxBytes now, Relation.ReflTransGen (HashStep KH KP)
    (fun _ _ => none, .new (.init maxBytes now) now) (m, s)

theorem HashReachable.represents (hsep : Separate KH KP) (h : HashReachable KH KP m s) :
    Represents KH m s := by
  obtain ⟨maxBytes, now, hrun⟩ := h
  have hall : ∀ x : Hashes × Server (World Ref H) H, Relation.ReflTransGen (HashStep KH KP)
      (fun _ _ => none, .new (.init maxBytes now) now) x → Represents KH x.1 x.2 := by
    intro x hx
    induction hx with
    | refl => exact represents_new KH maxBytes now
    | @tail y z _ hstep ih =>
      cases hstep with
      | @hash fuel name c hname hkey hfits hroom =>
        have hprog := handleCommand_hash (H := H) fuel hname
        have hnext := yields_next ih hsep fuel hkey hfits
        rw [← hprog] at hnext
        exact hnext hroom
      | plain fuel hargs hroom => exact yields_plain ih hsep fuel hargs hroom
      | tick now h => exact ih.tick h
      | sweep => exact ih.toTexts.swept.symm ▸ ih
  exact hall (m, s) hrun

theorem HashReachable.reachable (h : HashReachable KH KP m s) : s.Reachable := by
  obtain ⟨maxBytes, now, hrun⟩ := h
  have hall : ∀ x : Hashes × Server (World Ref H) H, Relation.ReflTransGen (HashStep KH KP)
      (fun _ _ => none, .new (.init maxBytes now) now) x → x.2.Reachable := by
    intro x hx
    induction hx with
    | refl => exact Server.reachable_new maxBytes now
    | tail _ hstep ih =>
      obtain ⟨maxBytes', now', hrun'⟩ := ih
      refine ⟨maxBytes', now', hrun'.tail ?_⟩
      cases hstep with
      | hash fuel => exact .command fuel _
      | plain fuel => exact .command fuel _
      | tick now h => exact .tick now h
      | sweep => exact .sweep
  exact hall (m, s) hrun

end

section Instances

open Plain

def oneField (field : Str) : HashCommand := .hset (str "a") field (str "v")

def withField (field : Str) : Server (World Ref Str) Str :=
  ((Server.new (.init 0 0) 0).handle (shardedBackend Str) 1 [str "HSET", str "a", field, str "v"]).2

theorem withField_reachable {KH KP : Set Str} (hkey : str "a" ∈ KH) {field : Str}
    (hroom : (handleCommand 1 [str "HSET", str "a", field, str "v"]).passes
      (Server.step (shardedBackend Str)) evictsNothing (.new (.init 0 0) 0) = true) :
    HashReachable KH KP ((oneField field).next fun _ _ => none) (withField field) :=
  ⟨0, 0, .single (.hash (c := oneField field) 1 rfl hkey (show str "v" ≠ [0] by decide) hroom)⟩

end Instances

end Wavicle.Resp3
