import Wavicle.Resp3.TextServers

/-! # The key space

`EXISTS` and `DBSIZE` pass over tombstones, `KEYS` does not.

* `StringReachable`: servers whose clients use strings only; `Unextended`: no key is below another.
* `enumeration_agrees_iff`: `KEYS` lists what `EXISTS` finds exactly if no tombstone is left. -/

namespace Wavicle.Resp3

open Lib Wavicle.Core Storage Prog

section

variable {H : Type} [DecidableEq H] [Hashing H] {K : Set Str} {s t : Server (World Ref H) H}

/-- No key is below another one. -/
def Unextended (K : Set Str) : Prop := ∀ k ∈ K, ∀ p ∈ K, hasPrefix p (k ++ str ":") = false

/-- A server of texts whose paths are keys in `K`, none of them a hash. -/
structure Flat (K : Set Str) (s : Server (World Ref H) H) : Prop extends Texts s where
  paths : ∀ p a, s.store.cache.resident p = some a → p ∈ K
  noHash : ∀ key, s.keyTypes.lookup key ≠ some .hash

theorem flat_new (K : Set Str) (maxBytes : ℤ) (now : Time) :
    Flat K (Server.new (.init maxBytes now) now : Server (World Ref H) H) where
  toTexts := texts_new maxBytes now
  paths p a h := by cases h
  noHash key h := by cases h

theorem Flat.same (hs : Flat K s) (h : s.Same t) : Flat K t where
  toTexts := hs.toTexts.same h
  paths p a ha := hs.paths p a (h.resident ▸ ha)
  noHash key := h.types key ▸ hs.noHash key

/-! ### What the commands keep -/

abbrev KeepsFlat (K : Set Str) {α : Type} (p : ServerProg H α) (Q : α → Prop) : Prop :=
  Keeps (Server.step (shardedBackend H)) (Flat K) p Q

theorem KeepsFlat.of_finds {α : Type} {p : ServerProg H α} {Q : α → Prop}
    (h : ∀ s, Flat K s → Finds s p Q) : KeepsFlat K p Q := by
  intro s hs
  obtain ⟨hsame, hres⟩ := h s hs s (.refl s)
  exact ⟨hs.same hsame, hres⟩

theorem keepsFlat_appendAtom {e : Expr Ref H} (he : HoldsText e) {p : Str} (hp : p ∈ K)
    (parents : List H) : KeepsFlat K (appendAtom e p parents zeroTime) fun _ => True := by
  intro s hs
  refine ⟨⟨hs.toTexts.append he p, fun q a ha => ?_, hs.noHash⟩, trivial⟩
  rcases World.resident_of_append ha with hold | ⟨rfl, -⟩
  · exact hs.paths q a hold
  · exact hp

theorem keepsFlat_newText (text : Str) :
    KeepsFlat (H := H) K (ServerOp.ask (.newEConst (.vString text))) (· = .vString text) := by
  intro s hs
  refine ⟨⟨hs.toTexts.intern fun v hv => ?_, hs.paths, hs.noHash⟩, hs.toTexts.step_newEConst text⟩
  cases hv
  exact ⟨text, rfl⟩

theorem Flat.withTypes (hs : Flat K s) {types : GoMap Str KeyType}
    (h : ∀ key, types.lookup key ≠ some .hash) : Flat K { s with keyTypes := types } :=
  ⟨hs.toTexts.withTypes types, hs.paths, h⟩

theorem keepsFlat_setString (key : Str) : KeepsFlat (H := H) K (setKeyType key .string) fun _ => True := by
  refine fun s hs => ⟨hs.withTypes fun k => ?_, trivial⟩
  rw [GoMap.lookup_insert]
  split_ifs
  · simp
  · exact hs.noHash k

theorem keepsFlat_delKeyType (key : Str) : KeepsFlat (H := H) K (delKeyType key) fun _ => True := by
  refine fun s hs => ⟨hs.withTypes fun k => ?_, trivial⟩
  rw [GoMap.lookup_erase]
  split_ifs
  · simp
  · exact hs.noHash k

theorem keepsFlat_clearTypes : KeepsFlat (H := H) K (ServerOp.ask .clearTypes) fun _ => True :=
  fun _ hs => ⟨hs.withTypes (fun _ h => by cases h), trivial⟩

theorem Flat.typeOf (hs : Flat K s) (hK : Unextended K) {key : Str} (hkey : key ∈ K) :
    s.typeOf key ≠ some .hash := by
  have hinferred : s.inferred key ≠ some .hash := by
    unfold Server.inferred Server.value
    cases hlive : s.live key with
    | some a =>
      obtain ⟨-, text, htext⟩ := hs.live_eq_some hlive
      rw [Option.map_some, htext]
      simp [Expr.constValue, inferType]
    | none =>
      have hbelow : s.hasBelow key = false := by
        refine List.any_eq_false.2 fun p hp => ?_
        obtain ⟨a, ha⟩ := hs.mem_frontierPaths.1 hp
        simp [isBelow, hK key hkey p (hs.paths p a ha)]
      rw [Option.map_none, hbelow]
      simp
  unfold Server.typeOf
  cases hlookup : s.keyTypes.lookup key with
  | none => exact hinferred
  | some t =>
    rw [Option.some_or, ← hlookup]
    exact hs.noHash key

theorem keepsFlat_assertKeyType (hK : Unextended K) {key : Str} (hkey : key ∈ K) (want : KeyType) :
    KeepsFlat (H := H) K (assertKeyType key want) fun _ => True := by
  intro s hs
  obtain ⟨-, hsame⟩ := ends_assertKeyType hs.inv key want
  have hrecorded : Flat K (s.recorded key) := by
    refine ⟨hs.toTexts.recorded key, hs.paths, fun k => ?_⟩
    rw [s.lookup_recorded]
    split_ifs
    · exact hs.typeOf hK hkey
    · exact hs.noHash k
  exact ⟨hrecorded.same hsame, trivial⟩

theorem keepsFlat_frontierPaths : KeepsFlat (H := H) K frontierPaths fun paths => ∀ p ∈ paths, p ∈ K := by
  refine .of_finds fun s hs => (finds_frontierPaths hs.inv).mono fun paths hperm p hp => ?_
  obtain ⟨a, ha⟩ := hs.mem_frontierPaths.1 (hperm.mem_iff.1 hp)
  exact hs.paths p a ha

theorem keepsFlat_getCurrent (p : Str) : KeepsFlat (H := H) K (getCurrent p) fun _ => True :=
  .of_finds fun _ _ => (finds_getCurrent p).mono fun _ _ => trivial

theorem keepsFlat_curValue (p : Str) : KeepsFlat (H := H) K (curValue p) fun _ => True :=
  .of_finds fun _ _ => (finds_curValue p).mono fun _ _ => trivial

theorem keepsFlat_appendText (text : Str) {p : Str} (hp : p ∈ K) :
    KeepsFlat (H := H) K (appendText (.eConst (.vString text)) p) fun _ => True :=
  (keepsFlat_getCurrent p).bind fun _ _ => keepsFlat_appendAtom (.inr ⟨text, rfl⟩) hp _

theorem keepsFlat_storeText (text : Str) {key : Str} (hkey : key ∈ K) :
    KeepsFlat (H := H) K (storeText key text) fun _ => True := by
  have hput : KeepsFlat (H := H) K (putValue key (.vString text)) fun _ => True := by
    refine (keepsFlat_newText text).bind fun v hv => ?_
    rw [hv]
    exact keepsFlat_appendAtom (.inr ⟨text, rfl⟩) hkey _
  exact hput.bind fun _ _ => keepsFlat_setString key

theorem keepsFlat_putTombstones : ∀ {paths : List Str}, (∀ p ∈ paths, p ∈ K) →
    KeepsFlat (H := H) K (putTombstones paths) fun _ => True
  | [], _ => keeps_pure trivial
  | p :: _, h =>
    (keepsFlat_appendAtom (.inl rfl) (h p (.head _)) _).bind fun _ _ =>
      keepsFlat_putTombstones fun q hq => h q (List.mem_cons_of_mem p hq)

theorem keepsFlat_deletePaths : ∀ {paths : List Str}, (∀ p ∈ paths, p ∈ K) →
    KeepsFlat (H := H) K (deletePaths paths) fun _ => True
  | [], _ => keeps_pure trivial
  | p :: paths, h => by
    have hrest : KeepsFlat K (deletePaths paths) fun _ => True :=
      keepsFlat_deletePaths fun q hq => h q (List.mem_cons_of_mem p hq)
    refine (keepsFlat_getCurrent p).bind fun prev _ => ?_
    cases prev with
    | none => exact hrest
    | some prev =>
      refine (keepsFlat_appendAtom (.inl rfl) (h p (.head _)) _).bind fun r _ => ?_
      cases r with
      | error _ => exact hrest
      | ok _ =>
        exact (keepsFlat_delKeyType p).bind fun _ _ => hrest.bind fun _ _ => keeps_pure trivial

theorem keepsFlat_putPairs (hK : Unextended K) : ∀ {ps : List (Str × Str)}, (∀ p ∈ ps, p.1 ∈ K) →
    KeepsFlat (H := H) K (putPairs ps) fun _ => True
  | [], _ => keeps_pure trivial
  | (path, text) :: _, h => by
    have hpath := h (path, text) (.head _)
    refine (keepsFlat_assertKeyType hK hpath .string).bind fun ok _ => ?_
    cases ok with
    | false => exact keeps_pure trivial
    | true =>
      refine (keepsFlat_appendText text hpath).bind fun r _ => ?_
      cases r with
      | error _ => exact keeps_pure trivial
      | ok _ =>
        exact (keepsFlat_setString path).bind fun _ _ =>
          keepsFlat_putPairs hK (List.forall_mem_cons.1 h).2

variable {rest : List Str}

theorem keepsFlat_set (hK : Unextended K) (h : ∀ k ∈ rest.head?, k ∈ K) :
    KeepsFlat (H := H) K (set rest) fun _ => True := by
  unfold set
  split
  · rename_i path text _
    have hpath : path ∈ K := h path rfl
    refine (keepsFlat_assertKeyType hK hpath .string).bind fun ok _ => ?_
    cases ok with
    | false => exact keeps_pure trivial
    | true =>
      refine (keepsFlat_newText text).bind fun v hv => ?_
      subst hv
      refine (keepsFlat_appendText text hpath).bind fun r _ => ?_
      cases r with
      | error _ => exact keeps_pure trivial
      | ok _ => exact (keepsFlat_setString path).bind fun _ _ => keeps_pure trivial
  · exact keeps_pure trivial

theorem keepsFlat_getset [Floats] (hK : Unextended K) (h : ∀ k ∈ rest.head?, k ∈ K) :
    KeepsFlat (H := H) K (getset rest) fun _ => True := by
  unfold getset
  split
  · rename_i key text _
    have hkey : key ∈ K := h key rfl
    refine (keepsFlat_assertKeyType hK hkey .string).bind fun ok _ => ?_
    cases ok with
    | false => exact keeps_pure trivial
    | true =>
      exact (keepsFlat_curValue key).bind fun _ _ =>
        (keepsFlat_storeText text hkey).bind fun _ _ => keeps_pure trivial
  · exact keeps_pure trivial

theorem keepsFlat_setnx (h : ∀ k ∈ rest.head?, k ∈ K) :
    KeepsFlat (H := H) K (setnx rest) fun _ => True := by
  unfold setnx
  split
  · rename_i key text _
    refine (keepsFlat_curValue key).bind fun v _ => ?_
    cases v with
    | some _ => exact keeps_pure trivial
    | none => exact (keepsFlat_storeText text (h key rfl)).bind fun _ _ => keeps_pure trivial
  · exact keeps_pure trivial

/-! ### Runs -/

variable [Floats] [Spaces] [Printing] [Unicode] [Runtime]

/-- The string commands, on keys in `K`. -/
inductive StringCommand (K : Set Str) : List Str → Prop where
  | set {name : Str} {rest : List Str} (hname : toUpper name = str "SET")
      (hkey : ∀ k ∈ rest.head?, k ∈ K) : StringCommand K (name :: rest)
  | mset {name : Str} {rest : List Str} (hname : toUpper name = str "MSET")
      (hkeys : ∀ ps, pairs rest = some ps → ∀ p ∈ ps, p.1 ∈ K) : StringCommand K (name :: rest)
  | del {name : Str} {rest : List Str} (hname : toUpper name = str "DEL")
      (hkeys : ∀ k ∈ rest, k ∈ K) : StringCommand K (name :: rest)
  | setnx {name : Str} {rest : List Str} (hname : toUpper name = str "SETNX")
      (hkey : ∀ k ∈ rest.head?, k ∈ K) : StringCommand K (name :: rest)
  | getset {name : Str} {rest : List Str} (hname : toUpper name = str "GETSET")
      (hkey : ∀ k ∈ rest.head?, k ∈ K) : StringCommand K (name :: rest)
  | flushall {name : Str} (rest : List Str) (hname : toUpper name = str "FLUSHALL") :
      StringCommand K (name :: rest)

/-- A step of a server whose clients use strings only, under the keys `K`. -/
inductive StringStep (K : Set Str) (s : Server (World Ref H) H) : Server (World Ref H) H → Prop where
  | command (fuel : ℕ) {args : List Str} (h : StringCommand K args) :
      StringStep K s (s.handle (shardedBackend H) fuel args).2
  | tick (t : Time) (h : s.store.now ≤ t) :
      StringStep K s { s with store := { s.store with now := t } }
  | sweep : StringStep K s
      { s with store := { s.store with cache := s.store.cache.sweepExpired s.store.now } }

/-- A state of a server whose clients use strings only, under the keys `K`. -/
def StringReachable (K : Set Str) (s : Server (World Ref H) H) : Prop :=
  ∃ maxBytes now, Relation.ReflTransGen (StringStep K) (.new (.init maxBytes now) now) s

theorem keepsFlat_handleCommand (hK : Unextended K) (fuel : ℕ) {args : List Str}
    (h : StringCommand K args) : KeepsFlat (H := H) K (handleCommand fuel args) fun _ => True := by
  cases h with
  | set hname hkey =>
    rw [handleCommand_core hname (show _ = some .set by decide)]
    exact keepsFlat_set hK hkey
  | @mset name rest hname hkeys =>
    rw [handleCommand_core hname (show _ = some .mset by decide)]
    change KeepsFlat K (mset rest) _
    unfold mset
    cases hps : pairs rest with
    | none => exact keeps_pure trivial
    | some ps => exact keepsFlat_putPairs hK (hkeys ps hps)
  | @del name rest hname hkeys =>
    rw [handleCommand_core hname (show _ = some .del by decide)]
    cases rest with
    | nil => exact keeps_pure trivial
    | cons => exact (keepsFlat_deletePaths hkeys).bind fun _ _ => keeps_pure trivial
  | setnx hname hkey =>
    rw [handleCommand_extended hname (by decide) (show _ = some .setnx by decide)]
    exact (keepsFlat_setnx hkey).bind fun _ _ => keeps_pure trivial
  | getset hname hkey =>
    rw [handleCommand_extended hname (by decide) (show _ = some .getset by decide)]
    exact (keepsFlat_getset hK hkey).bind fun _ _ => keeps_pure trivial
  | flushall rest hname =>
    rw [handleCommand_extended hname (by decide) (show _ = some .flushdb by decide)]
    refine Keeps.bind (Q := fun _ => True) ?_ fun _ _ => keeps_pure trivial
    refine keepsFlat_frontierPaths.bind fun paths hpaths => ?_
    exact (keepsFlat_putTombstones hpaths).bind fun _ _ =>
      keepsFlat_clearTypes.bind fun _ _ => keeps_pure trivial

theorem StringReachable.flat (hK : Unextended K) (h : StringReachable K s) : Flat K s := by
  obtain ⟨maxBytes, now, hrun⟩ := h
  induction hrun with
  | refl => exact flat_new K maxBytes now
  | tail _ hstep ih =>
    cases hstep with
    | command fuel hargs => exact (keepsFlat_handleCommand hK fuel hargs _ ih).1
    | tick t ht => exact ⟨ih.toTexts.tick ht, ih.paths, ih.noHash⟩
    | sweep => exact ih.toTexts.swept.symm ▸ ih

/-! ### The three commands -/

def Server.listedAs (s : Server (World Ref H) H) (p : Str) : Str :=
  match beforeLast 58 p with
  | none => p
  | some parent => if s.keyTypes.lookup parent = some .hash then parent else p

def Server.lists (s : Server (World Ref H) H) (keyPrefix p : Str) : Bool :=
  hasPrefix (s.listedAs p) keyPrefix ∨ hasPrefix p keyPrefix

def Server.listing (s : Server (World Ref H) H) (pat : Str) : List Str :=
  sortStrings (((s.store.cache.frontierPaths s.store.now).filter
    (s.lists (patternPrefix pat))).map s.listedAs).dedup

section

omit [Floats] [Spaces] [Printing] [Unicode] [Runtime]

theorem finds_listedKey (p : Str) : Finds s (listedKey p) (· = s.listedAs p) := by
  unfold listedKey Server.listedAs
  cases beforeLast 58 p with
  | none => exact keeps_pure rfl
  | some parent =>
    have hparent : Finds s (isHashKey parent) (· = decide (s.keyTypes.lookup parent = some .hash)) := by
      refine (finds_loadType parent).bind fun t ht => keeps_pure ?_
      rw [ht]
    refine hparent.bind fun b hb => ?_
    subst hb
    by_cases hhash : s.keyTypes.lookup parent = some .hash
    · simp only [hhash, decide_true, if_true]
      exact keeps_pure rfl
    · simp only [hhash, decide_false, if_false]
      exact keeps_pure rfl

theorem finds_listKeys (keyPrefix : Str) : ∀ paths : List Str, Finds s (listKeys keyPrefix paths)
    (· = (paths.filter (s.lists keyPrefix)).map s.listedAs)
  | [] => keeps_pure rfl
  | p :: paths => by
    refine (finds_listedKey p).bind fun key hkey =>
      (finds_listKeys keyPrefix paths).bind fun keys hkeys => keeps_pure ?_
    rw [hkey, hkeys, List.filter_cons]
    unfold Server.lists
    split_ifs with h h' h'
    · rfl
    · exact absurd (decide_eq_true h) h'
    · exact absurd (of_decide_eq_true h') h
    · rfl

theorem finds_matchingKeys (hs : s.store.Inv) (pat : Str) :
    Finds s (matchingKeys pat) (· = s.listing pat) := by
  refine (finds_frontierPaths hs).bind fun paths hperm =>
    (finds_listKeys (patternPrefix pat) paths).bind fun keys hkeys => keeps_pure ?_
  subst hkeys
  exact sortStrings_perm ((hperm.filter (s.lists (patternPrefix pat))).map s.listedAs).dedup

end

section

omit [DecidableEq H] [Hashing H] [Floats] [Spaces] [Printing] [Unicode] [Runtime]

theorem mem_listing {pat key : Str} : key ∈ s.listing pat ↔ ∃ p ∈ s.store.cache.frontierPaths s.store.now,
      s.lists (patternPrefix pat) p = true ∧ s.listedAs p = key := by
  rw [Server.listing, sortStrings, List.mem_insertionSort, List.mem_dedup, List.mem_map]
  simp only [List.mem_filter, and_assoc]

theorem nodup_listing (s : Server (World Ref H) H) (pat : Str) : (s.listing pat).Nodup :=
  (List.perm_insertionSort _ _).nodup_iff.2 (List.nodup_dedup _)

theorem listedAs_of_noHash (hs : ∀ key, s.keyTypes.lookup key ≠ some .hash) (p : Str) :
    s.listedAs p = p := by
  unfold Server.listedAs
  split
  · rfl
  · exact if_neg (hs _)

end

omit [Floats] [Spaces] [Printing] [Unicode] [Runtime] in
theorem patternPrefix_star (p : Str) : patternPrefix (p ++ str "*") = p := by
  unfold patternPrefix
  split_ifs with h
  · exact (List.append_left_eq_self.1 h).symm
  · have hsuffix : hasSuffix (p ++ str "*") (str "*") = true :=
      List.isSuffixOf_iff_suffix.2 (List.suffix_append p _)
    unfold trimSuffix
    rw [if_pos hsuffix, List.length_append, Nat.add_sub_cancel, List.take_left]

theorem Flat.reply_keys (hs : Flat K s) (fuel : ℕ) (p : Str) : ∃ l : List Str,
    (s.handle (shardedBackend H) fuel [str "KEYS", p ++ str "*"]).1 = .ok (arrayReply l) ∧
      l.Nodup ∧ ∀ k, k ∈ l ↔ (∃ a, s.store.current k = some a) ∧ hasPrefix k p = true := by
  have hfinds : Finds s (keys [p ++ str "*"]) (· = arrayReply (s.listing (p ++ str "*"))) :=
    (finds_matchingKeys hs.inv _).bind fun l hl => keeps_pure (congrArg arrayReply hl)
  have hrun : s.handle (shardedBackend H) fuel [str "KEYS", p ++ str "*"] = _ :=
    hs.toTexts.handle_extended (show toUpper (str "KEYS") = str "KEYS" from rfl) (by decide)
      (show _ = some .keys by decide)
  obtain ⟨-, hreply⟩ := hfinds s (.refl s)
  refine ⟨_, (congrArg Prod.fst hrun).trans (congrArg Except.ok hreply), nodup_listing s _, fun k => ?_⟩
  simp only [mem_listing, patternPrefix_star, Server.lists, listedAs_of_noHash hs.noHash, or_self,
    Bool.decide_eq_true, hs.mem_frontierPaths, hs.toTexts.current]
  constructor
  · rintro ⟨_, ha, hp, rfl⟩
    exact ⟨ha, hp⟩
  · rintro ⟨ha, hp⟩
    exact ⟨k, ha, hp, rfl⟩

theorem reply_exists (s : Server (World Ref H) H) (fuel : ℕ) (k : Str) :
    (s.handle (shardedBackend H) fuel [str "EXISTS", k]).1 =
      .ok (integerReply (if isLive s.store.current k then 1 else 0)) := by
  have hcount := (keeps_countLive s.store.current [k] s rfl).2
  unfold Server.handle
  rw [handleCommand_core (show toUpper (str "EXISTS") = str "EXISTS" from rfl)
    (show _ = some .exists' by decide)]
  simp only [runCore, exists', run_bind, hcount, run_pure]
  cases hlive : isLive s.store.current k <;> simp [hlive]

theorem reply_dbsize (s : Server (World Ref H) H) (fuel : ℕ) :
    (s.handle (shardedBackend H) fuel [str "DBSIZE"]).1 = .ok (integerReply
      ((s.store.cache.frontierPaths s.store.now).countP (isLive s.store.current) : ℕ)) := by
  have hcount := (keeps_countLive s.store.current (s.store.cache.frontierPaths s.store.now) s rfl).2
  have hpaths : frontierPaths.run (shardedStep H) s =
      (s.store.cache.frontierPaths s.store.now, s) := rfl
  unfold Server.handle
  rw [handleCommand_core (show toUpper (str "DBSIZE") = str "DBSIZE" from rfl)
    (show _ = some .dbsize by decide)]
  simp only [runCore, dbsize, run_bind, hpaths, hcount, run_pure]

/-! ### Enumeration against existence -/

/-- `live` are the keys that exist; `DBSIZE` is their number, and `KEYS` lists those with a prefix. -/
structure Enumerates (s : Server (World Ref H) H) (fuel : ℕ) (live : List Str) : Prop where
  nodup : live.Nodup
  existing : ∀ k, k ∈ live ↔
    (s.handle (shardedBackend H) fuel [str "EXISTS", k]).1 = .ok (integerReply 1)
  dbsize : (s.handle (shardedBackend H) fuel [str "DBSIZE"]).1 = .ok (integerReply live.length)
  keys : ∀ p, ∃ l : List Str,
    (s.handle (shardedBackend H) fuel [str "KEYS", p ++ str "*"]).1 = .ok (arrayReply l) ∧
      l.Nodup ∧ ∀ k, k ∈ l ↔ k ∈ live ∧ hasPrefix k p = true

theorem exists_iff_isLive (s : Server (World Ref H) H) (fuel : ℕ) (k : Str) :
    (s.handle (shardedBackend H) fuel [str "EXISTS", k]).1 = .ok (integerReply 1) ↔
      isLive s.store.current k = true := by
  rw [reply_exists]
  cases isLive s.store.current k with
  | true => simp
  | false => exact ⟨fun h => absurd h (by decide), fun h => by cases h⟩

/-- **Enumeration agrees with existence** after any string commands on keys that do not extend one another,
exactly if there is no tombstone in the frontier. -/
theorem enumeration_agrees_iff (hK : Unextended K) (hs : StringReachable K s) (fuel : ℕ) :
    (∃ live, Enumerates s fuel live) ↔ ∀ p a, s.store.current p = some a → isTombstone a = false := by
  have hflat := hs.flat hK
  constructor
  · rintro ⟨live, henum⟩ p a ha
    -- the tombstone is listed by `KEYS *`, so it has to exist
    obtain ⟨l, hreply, -, hl⟩ := henum.keys []
    obtain ⟨l', hreply', -, hl'⟩ := hflat.reply_keys fuel []
    obtain rfl := arrayReply_injective (Except.ok.inj (hreply.symm.trans hreply'))
    have hmem : p ∈ live := ((hl p).1 ((hl' p).2 ⟨⟨a, ha⟩, rfl⟩)).1
    have hlive := (exists_iff_isLive s fuel p).1 ((henum.existing p).1 hmem)
    unfold isLive at hlive
    rw [ha, Option.any_some] at hlive
    exact Bool.not_eq_true' _ ▸ hlive
  · intro hnone
    have hlive : ∀ k, isLive s.store.current k = true ↔ ∃ a, s.store.current k = some a := by
      intro k
      unfold isLive
      rw [Option.any_eq_true]
      exact ⟨fun ⟨a, ha, _⟩ => ⟨a, ha⟩, fun ⟨a, ha⟩ => ⟨a, ha, by rw [hnone k a ha]; rfl⟩⟩
    have hlisted : ∀ k, k ∈ s.store.cache.frontierPaths s.store.now ↔
        isLive s.store.current k = true := by
      intro k
      rw [hlive, hflat.mem_frontierPaths, hflat.toTexts.current]
    refine ⟨_, hflat.inv.nodup_frontierPaths, fun k => ?_, ?_, fun p => ?_⟩
    · rw [exists_iff_isLive, hlisted]
    · rw [reply_dbsize, List.countP_eq_length.2 fun k hk => (hlisted k).1 hk]
    · obtain ⟨l, hreply, hnodup, hl⟩ := hflat.reply_keys fuel p
      refine ⟨l, hreply, hnodup, fun k => ?_⟩
      rw [hl, hlisted, hlive]

end

section Instances

open Plain

def onlyKey : Set Str := {str "k"}

theorem onlyKey_unextended : Unextended onlyKey := by
  rintro _ rfl _ rfl
  decide

def withKey : Server (World Ref Str) Str :=
  ((Server.new (.init 0 0) 0).handle (shardedBackend Str) 0 [str "SET", str "k", str "v"]).2

theorem withKey_reachable : StringReachable onlyKey withKey := by
  refine ⟨0, 0, .single (.command 0 (.set rfl fun k hk => ?_))⟩
  exact (Option.some.inj hk).symm

def withoutKey : Server (World Ref Str) Str :=
  (withKey.handle (shardedBackend Str) 0 [str "DEL", str "k"]).2

/-- A key that has been deleted does not exist, but it is listed. -/
theorem keys_lists_tombstone : Unextended onlyKey ∧ StringReachable onlyKey withoutKey ∧
    (withoutKey.handle (shardedBackend Str) 0 [str "KEYS", str "*"]).1 = .ok (str "*1\r\n$1\r\nk\r\n") ∧
    (withoutKey.handle (shardedBackend Str) 0 [str "EXISTS", str "k"]).1 = .ok (str ":0\r\n") ∧
    ¬ ∃ live, Enumerates withoutKey 0 live := by
  have hkeys : (withoutKey.handle (shardedBackend Str) 0 [str "KEYS", str "*"]).1 =
      .ok (str "*1\r\n$1\r\nk\r\n") := by decide +kernel
  have hexists : (withoutKey.handle (shardedBackend Str) 0 [str "EXISTS", str "k"]).1 =
      .ok (str ":0\r\n") := by decide +kernel
  have hreach : StringReachable onlyKey withoutKey := by
    obtain ⟨maxBytes, now, hrun⟩ := withKey_reachable
    refine ⟨maxBytes, now, hrun.tail (.command 0 (.del rfl fun k hk => ?_))⟩
    exact List.mem_singleton.1 hk
  refine ⟨onlyKey_unextended, hreach, hkeys, hexists, fun ⟨live, henum⟩ => ?_⟩
  obtain ⟨l, hreply, -, hl⟩ := henum.keys []
  have hlist : arrayReply l = arrayReply [str "k"] := Except.ok.inj (hreply.symm.trans hkeys)
  obtain rfl := arrayReply_injective hlist
  have hmem : str "k" ∈ live := ((hl (str "k")).1 (.head _)).1
  have hone := (henum.existing (str "k")).1 hmem
  rw [hexists] at hone
  exact absurd (Except.ok.inj hone) (by decide)

theorem enumeration_agrees_iff_set : StringReachable onlyKey withKey ∧
    ∃ live, Enumerates withKey 0 live := by
  refine ⟨withKey_reachable,
    (enumeration_agrees_iff onlyKey_unextended withKey_reachable 0).2 fun p a ha => ?_⟩
  have hlog : (withKey.store.log.all fun a => isTombstone a = false) = true := by decide +kernel
  have hmem := (withKey_reachable.flat onlyKey_unextended).inv.logged ha
  exact of_decide_eq_true (List.all_eq_true.1 hlog a hmem)

end Instances

end Wavicle.Resp3
