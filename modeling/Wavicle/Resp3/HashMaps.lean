import Wavicle.Resp3.TextServers

/-! # Hashes as maps

`Hashes` are maps from fields to texts by key, and `Answers` is what the commands on them are to reply. The
server keeps the field `f` of the hash `k` under the path `k:f`, next to all other keys. -/

namespace Wavicle.Resp3

open Lib Wavicle.Core Storage Prog

/-! ### The maps -/

/-- The hashes of a server: the text of each field. -/
abbrev Hashes := Str → Str → Option Str

def Hashes.assign (m : Hashes) (key field : Str) (text : Option Str) : Hashes :=
  fun k f => if k = key ∧ f = field then text else m k f

/-- The list has the fields of a hash, each once. -/
structure Lists (h : Str → Option Str) (l : List (Str × Str)) : Prop where
  nodup : (l.map Prod.fst).Nodup
  mem_iff : ∀ f text, (f, text) ∈ l ↔ h f = some text

/-- A command on hashes with the arguments that it needs. -/
inductive HashCommand where
  | hset (key field text : Str)
  | hmset (key : Str) (first : Str × Str) (more : List (Str × Str))
  | hget (key field : Str)
  | hmget (key field : Str) (more : List Str)
  | hdel (key field : Str) (more : List Str)
  | hexists (key field : Str)
  | hlen (key : Str)
  | hkeys (key : Str)
  | hvals (key : Str)
  | hgetall (key : Str)

namespace HashCommand

def name : HashCommand → Str
  | hset _ _ _ => str "HSET"
  | hmset _ _ _ => str "HMSET"
  | hget _ _ => str "HGET"
  | hmget _ _ _ => str "HMGET"
  | hdel _ _ _ => str "HDEL"
  | hexists _ _ => str "HEXISTS"
  | hlen _ => str "HLEN"
  | hkeys _ => str "HKEYS"
  | hvals _ => str "HVALS"
  | hgetall _ => str "HGETALL"

def key : HashCommand → Str
  | hset key _ _ | hmset key _ _ | hget key _ | hmget key _ _ | hdel key _ _ | hexists key _
  | hlen key | hkeys key | hvals key | hgetall key => key

def more : HashCommand → List Str
  | hset _ field text => [field, text]
  | hmset _ first more => (first :: more).flatMap fun p => [p.1, p.2]
  | hget _ field | hexists _ field => [field]
  | hmget _ field more | hdel _ field more => field :: more
  | hlen _ | hkeys _ | hvals _ | hgetall _ => []

end HashCommand

def Hashes.assignAll (m : Hashes) (key : Str) : List (Str × Str) → Hashes
  | [] => m
  | (field, text) :: fields => (m.assign key field (some text)).assignAll key fields

def Hashes.removeAll (m : Hashes) (key : Str) : List Str → Hashes
  | [] => m
  | field :: fields => (m.assign key field none).removeAll key fields

def Hashes.removed (m : Hashes) (key : Str) : List Str → ℕ
  | [] => 0
  | field :: fields =>
    (m.assign key field none).removed key fields + if (m key field).isSome then 1 else 0

def HashCommand.next (m : Hashes) : HashCommand → Hashes
  | .hset key field text => m.assign key field (some text)
  | .hmset key first more => m.assignAll key (first :: more)
  | .hdel key field more => m.removeAll key (field :: more)
  | _ => m

def fieldReply (text : Option Str) : Str := text.elim nullReply formatBulkString

/-- What a command is to reply. `HSET` and `HMSET` only acknowledge; the fields of a hash are listed in
any order. -/
def HashCommand.Answers (m : Hashes) : HashCommand → Str → Prop
  | .hset _ _ _, reply => reply = integerReply 1
  | .hmset _ _ _, reply => reply = okReply
  | .hget key field, reply => reply = fieldReply (m key field)
  | .hmget key field more, reply => reply = arrayHeader (field :: more).length ++
      (field :: more).flatMap fun f => fieldReply (m key f)
  | .hdel key field more, reply => reply = integerReply (m.removed key (field :: more) : ℕ)
  | .hexists key field, reply => reply = integerReply (if (m key field).isSome then 1 else 0)
  | .hlen key, reply => ∃ l, Lists (m key) l ∧ reply = integerReply l.length
  | .hkeys key, reply => ∃ l, Lists (m key) l ∧ reply = arrayReply (l.map Prod.fst)
  | .hvals key, reply => ∃ l, Lists (m key) l ∧ reply = arrayReply (l.map Prod.snd)
  | .hgetall key, reply => ∃ l, Lists (m key) l ∧ reply = arrayReply (l.flatMap fun e => [e.1, e.2])

/-! ### Paths -/

/-- No path of a hash is one of another key. -/
structure Separate (KH KP : Set Str) : Prop where
  hashes : ∀ k ∈ KH, ∀ k' ∈ KH, hasPrefix k' (k ++ str ":") = false
  plain : ∀ k ∈ KH, ∀ p ∈ KP, p ≠ k ∧ hasPrefix p (k ++ str ":") = false

theorem hasPrefix_fieldPath (k f : Str) : hasPrefix (fieldPath k f) (k ++ str ":") = true :=
  List.isPrefixOf_iff_prefix.2 (List.prefix_append _ _)

variable {KH KP : Set Str}

theorem Separate.key_ne (h : Separate KH KP) {k k' : Str} (hk : k ∈ KH) (hk' : k' ∈ KH) (f : Str) :
    k' ≠ fieldPath k f := by
  rintro rfl
  exact absurd (hasPrefix_fieldPath k f) (by rw [h.hashes k hk _ hk']; simp)

theorem Separate.plain_ne (h : Separate KH KP) {k p : Str} (hk : k ∈ KH) (hp : p ∈ KP) (f : Str) :
    p ≠ fieldPath k f := by
  rintro rfl
  exact absurd (hasPrefix_fieldPath k f) (by rw [(h.plain k hk _ hp).2]; simp)

/-- If `k'` begins with `k` and the paths go on alike, then `k'` extends `k` by a colon or is `k`. -/
theorem fieldPath_cases {k k' f f' a : Str} (hk : k' = k ++ a) (h : str ":" ++ f = a ++ (str ":" ++ f')) :
    k = k' ∧ f = f' ∨ hasPrefix k' (k ++ str ":") = true := by
  cases a with
  | nil =>
    rw [List.append_nil] at hk
    exact Or.inl ⟨hk.symm, List.append_cancel_left h⟩
  | cons b a =>
    obtain ⟨rfl, -⟩ := List.cons.inj h
    refine Or.inr (List.isPrefixOf_iff_prefix.2 ⟨a, ?_⟩)
    rw [hk, List.append_assoc]
    rfl

theorem Separate.fieldPath_inj (h : Separate KH KP) {k k' f f' : Str} (hk : k ∈ KH) (hk' : k' ∈ KH)
    (heq : fieldPath k f = fieldPath k' f') : k = k' ∧ f = f' := by
  unfold fieldPath at heq
  rw [List.append_assoc, List.append_assoc] at heq
  rcases List.append_eq_append_iff.1 heq with ⟨a, hk₁, hrest⟩ | ⟨a, hk₁, hrest⟩
  · rcases fieldPath_cases hk₁ hrest with hboth | hpre
    · exact hboth
    · rw [h.hashes k hk k' hk'] at hpre
      cases hpre
  · rcases fieldPath_cases hk₁ hrest with ⟨rfl, rfl⟩ | hpre
    · exact ⟨rfl, rfl⟩
    · rw [h.hashes k' hk' k hk] at hpre
      cases hpre

/-! ### Representation -/

variable {H : Type} [DecidableEq H] [Hashing H] {m : Hashes} {s t : Server (World Ref H) H}

/-- The server has the maps `m` for the keys in `KH`. -/
structure Represents (KH : Set Str) (m : Hashes) (s : Server (World Ref H) H) : Prop extends Texts s where
  types : ∀ k ∈ KH, ∀ type, s.keyTypes.lookup k = some type → type = .hash
  own : ∀ k ∈ KH, s.store.cache.resident k = none
  fields : ∀ k ∈ KH, ∀ f, s.textAt (fieldPath k f) = m k f
  nonzero : ∀ k ∈ KH, ∀ f, m k f ≠ some [0]

theorem represents_new (KH : Set Str) (maxBytes : ℤ) (now : Time) :
    Represents KH (fun _ _ => none) (Server.new (.init maxBytes now) now : Server (World Ref H) H) where
  toTexts := texts_new maxBytes now
  types k _ type h := by cases h
  own k _ := rfl
  fields k _ f := rfl
  nonzero k _ f h := by cases h

theorem Represents.same (hs : Represents KH m s) (h : s.Same t) : Represents KH m t where
  toTexts := hs.toTexts.same h
  types k hk type htype := hs.types k hk type ((h.types k).symm.trans htype)
  own k hk := (congrFun h.resident k).trans (hs.own k hk)
  fields k hk f := (congrFun h.textAt _).trans (hs.fields k hk f)
  nonzero := hs.nonzero

theorem Represents.withTypes (hs : Represents KH m s) {types : GoMap Str KeyType}
    (h : ∀ k ∈ KH, ∀ type, types.lookup k = some type → type = .hash) :
    Represents KH m { s with keyTypes := types } :=
  ⟨hs.toTexts.withTypes types, h, hs.own, hs.fields, hs.nonzero⟩

variable {e : Expr Ref H}

theorem Represents.intern (hs : Represents KH m s) (he : ∀ v, e = .eConst v → ∃ text, v = .vString text) :
    Represents KH m { s with interned := (s.interned.intern e).2 } :=
  ⟨hs.toTexts.intern he, hs.types, hs.own, hs.fields, hs.nonzero⟩

theorem Represents.tick (hs : Represents KH m s) {now : Time} (h : s.store.now ≤ now) :
    Represents KH m { s with store := { s.store with now := now } } :=
  ⟨hs.toTexts.tick h, hs.types, hs.own, hs.fields, hs.nonzero⟩

theorem Represents.typeOf (hs : Represents KH m s) {k : Str} (hk : k ∈ KH) {type : KeyType}
    (h : s.typeOf k = some type) : type = .hash := by
  have htext : s.textAt k = none := by
    unfold Server.textAt
    rw [hs.own k hk]
    rfl
  unfold Server.typeOf Server.inferred at h
  rw [hs.value_eq, htext] at h
  cases hlookup : s.keyTypes.lookup k with
  | some type' =>
    rw [hlookup, Option.some_or] at h
    exact hs.types k hk type (hlookup.trans h)
  | none =>
    rw [hlookup, Option.none_or] at h
    cases hbelow : s.hasBelow k with
    | true => simpa [hbelow] using h.symm
    | false => simp [hbelow] at h

theorem Represents.recorded (hs : Represents KH m s) (key : Str) : Represents KH m (s.recorded key) := by
  refine hs.withTypes fun k hk type htype => ?_
  have hlookup := s.lookup_recorded key k
  split_ifs at hlookup with heq
  · subst heq
    exact hs.typeOf hk (hlookup.symm.trans htype)
  · exact hs.types k hk type (hlookup.symm.trans htype)

/-! ### Writing -/

/-- The expression that is appended to set a field to a text, or to remove it. -/
def writes : Option Str → Expr Ref H
  | some text => .eConst (.vString text)
  | none => .eConst .vNull

omit [DecidableEq H] [Hashing H] in
theorem holdsText_writes (text : Option Str) : HoldsText (writes text : Expr Ref H) := by
  cases text with
  | none => exact Or.inl rfl
  | some text => exact Or.inr ⟨text, rfl⟩

omit [DecidableEq H] [Hashing H] in
theorem textOf_writes (text : Option Str) : textOf (writes text : Expr Ref H) = text := by
  cases text <;> rfl

omit [DecidableEq H] in
theorem textOf_of_serialize (he : HoldsText e) (hnz : textOf e ≠ some [0]) {text : Option Str}
    (htext : text ≠ some [0]) (h : e.serialize = (writes text : Expr Ref H).serialize) :
    textOf e = text := by
  rcases he with rfl | ⟨text', rfl⟩
  · cases text with
    | none => rfl
    | some text =>
      have hbytes : [0] = text := (List.cons.inj h).2
      exact absurd (congrArg some hbytes.symm) htext
  · cases text with
    | none =>
      have hbytes : text' = [0] := (List.cons.inj h).2
      exact absurd (congrArg some hbytes) hnz
    | some text => exact congrArg some (List.cons.inj h).2

theorem Represents.append_field (hs : Represents KH m s) (hsep : Separate KH KP) {key : Str}
    (hkey : key ∈ KH) (field : Str) {text : Option Str} (htext : text ≠ some [0])
    (hev : s.store.cache.evicts s.store.now (writes text) (fieldPath key field) zeroTime = false) :
    Represents KH (m.assign key field text)
      { s with store := (s.store.append (writes text) (fieldPath key field) zeroTime).2 } := by
  obtain ⟨⟨a, hres, ha⟩, hothers⟩ := hs.toTexts.resident_append hev
  refine ⟨hs.toTexts.append (holdsText_writes text) _, hs.types, fun k hk => ?_, fun k hk f => ?_,
    fun k hk f => ?_⟩
  · exact (hothers k (hsep.key_ne hkey hk field)).trans (hs.own k hk)
  · change ((s.store.append (writes text) (fieldPath key field) zeroTime).2.cache.resident
      (fieldPath k f)).bind (fun a => textOf a.expr) = _
    unfold Hashes.assign
    split_ifs with heq
    · obtain ⟨rfl, rfl⟩ := heq
      rw [hres, Option.bind_some]
      rcases ha with hexpr | ⟨hold, hbytes⟩
      · rw [hexpr, textOf_writes]
      · -- the old atom is kept: it has the same bytes, hence the same text
        have hfield : textOf a.expr = m k f := by
          rw [← hs.fields k hk f, Server.textAt, hold, Option.bind_some]
        refine textOf_of_serialize (hs.resident _ a hold).2 ?_ htext hbytes
        rw [hfield]
        exact hs.nonzero k hk f
    · have hne : fieldPath k f ≠ fieldPath key field := fun h =>
        heq (hsep.fieldPath_inj hk hkey h)
      rw [hothers _ hne]
      exact hs.fields k hk f
  · unfold Hashes.assign
    split_ifs
    · exact htext
    · exact hs.nonzero k hk f

theorem Represents.append_plain (hs : Represents KH m s) (hsep : Separate KH KP) {p : Str}
    (hp : p ∈ KP) (he : HoldsText e) (hev : s.store.cache.evicts s.store.now e p zeroTime = false) :
    Represents KH m { s with store := (s.store.append e p zeroTime).2 } := by
  obtain ⟨-, hothers⟩ := hs.toTexts.resident_append hev
  refine ⟨hs.toTexts.append he p, hs.types, fun k hk => ?_, fun k hk f => ?_, hs.nonzero⟩
  · exact (hothers k (hsep.plain k hk p hp).1.symm).trans (hs.own k hk)
  · have hres := hothers _ (hsep.plain_ne hk hp f).symm
    change ((s.store.append e p zeroTime).2.cache.resident (fieldPath k f)).bind _ = _
    rw [hres]
    exact hs.fields k hk f

end Wavicle.Resp3
