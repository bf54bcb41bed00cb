import Wavicle.Core.Intern

/-! # Interned expressions

The constructors of `core/intern.go`. Two expressions are the same if they have the same number, the `ID` of
their header. Constants are compared by bytes that are neither tagged nor delimited, and `transparent_iff`
says that this is all that can go wrong. Values are never changed here. -/

namespace Wavicle.Core

open Lib List

/-- The arguments of a constructor; an expression among them is given by its number. -/
inductive Arguments (H : Type) where
  | const (value : Value Unit)
  | compose (atoms : List H)
  | apply (func arg : ℕ)

/-- A result of a constructor, with the arguments of the call and the pointer that it returned. -/
structure Made (H : Type) where
  arguments : Arguments H
  id : ℕ
  expr : Expr Unit H

/-- A call of a constructor. `NewEApply` is given expressions that were made before, by their places. -/
inductive Construction (H : Type) where
  | newEConst (value : Value Unit)
  | newECompose (atoms : List H)
  | newEApply (func arg : ℕ)

/-- `globalIntern`, and what the constructors have returned. -/
structure Interning (H : Type) where
  table : InternTable Unit H
  made : List (Made H)

variable {H : Type} [DecidableEq H] [Hashing H]

/-- The structural hash of the arguments, and what `exprEqual` compares. -/
def Arguments.keys : Arguments H → UInt64 × InternKey H
  | .const value =>
    (Hashing.xxhash H (0 :: bigEndian 8 (value.fastHash H).toNat), .const value.serialize)
  | .compose atoms => (Hashing.xxhash H (3 :: atoms.flatMap Hashing.bytes), .compose atoms)
  | .apply func arg => (Hashing.xxhash H (4 :: (bigEndian 8 func ++ bigEndian 8 arg)), .apply func arg)

namespace Interning

variable (x : Interning H)

def construct (arguments : Arguments H) (e : Expr Unit H) : Interning H :=
  let (expr, table) := x.table.intern e
  ⟨table, x.made ++ [⟨arguments, table.idOf (x.table.keys e), expr⟩]⟩

def step : Construction H → Interning H
  | .newEConst value => x.construct (.const value) (.eConst value)
  | .newECompose atoms => x.construct (.compose atoms) (.eCompose atoms)
  | .newEApply func arg =>
    match x.made[func]?, x.made[arg]? with
    | some f, some a => x.construct (.apply f.id a.id) (.eApply f.expr a.expr)
    | _, _ => x

def run (calls : List (Construction H)) : Interning H := calls.foldl step ⟨[], []⟩

/-- **Interning is transparent**: a constant has the value that it was made of, and two calls have
returned the same expression exactly if their arguments are equal. -/
def Transparent : Prop :=
  (∀ m ∈ x.made, ∀ v, m.arguments = .const v → m.expr = .eConst v) ∧
    ∀ m ∈ x.made, ∀ m' ∈ x.made, m.id = m'.id ↔ m.arguments = m'.arguments

/-- No two different constants have the same serialization and the same structural hash. -/
def TellsApart : Prop :=
  ∀ m ∈ x.made, ∀ m' ∈ x.made, ∀ v w, m.arguments = .const v → m'.arguments = .const w →
    (Arguments.const v : Arguments H).keys = (Arguments.const w).keys → v = w

end Interning

/-! ### Tables that grow -/

namespace InternTable

variable {t : InternTable Unit H}

/-- The subexpressions are in the table, so that the keys of the expression are settled. -/
def Settled (t : InternTable Unit H) : Expr Unit H → Prop
  | .eApply f a => (Settled t f ∧ (t.find (t.keys f).1 (t.keys f).2).isSome) ∧
      Settled t a ∧ (t.find (t.keys a).1 (t.keys a).2).isSome
  | .eFieldAccess _ source => Settled t source ∧ (t.find (t.keys source).1 (t.keys source).2).isSome
  | _ => True

variable {entry : InternEntry Unit H}

omit [Hashing H] in
theorem find_append {hash : UInt64} {key : InternKey H} (h : t.find hash key = some entry)
    (s : InternTable Unit H) : find (t ++ s) hash key = some entry := by
  unfold find at h ⊢
  rw [List.find?_append, h]
  rfl

omit [Hashing H] in
theorem idOf_append {k : UInt64 × InternKey H} (h : (t.find k.1 k.2).isSome) (s : InternTable Unit H) :
    idOf (t ++ s) k = t.idOf k := by
  obtain ⟨entry, hentry⟩ := Option.isSome_iff_exists.1 h
  rw [idOf, idOf, hentry, find_append hentry]

theorem Settled.keys_append (s : InternTable Unit H) : ∀ {e : Expr Unit H}, t.Settled e →
    keys (t ++ s) e = t.keys e
  | .eConst _, _ | .eEmbed _ _, _ | .eCompose _, _ | .eResonate _, _ => rfl
  | .eFieldAccess field source, h => by
    simp only [keys, h.1.keys_append s, idOf_append h.2 s]
  | .eApply f a, h => by
    simp only [keys, h.1.1.keys_append s, h.2.1.keys_append s, idOf_append h.1.2 s,
      idOf_append h.2.2 s]

theorem Settled.append (s : InternTable Unit H) : ∀ {e : Expr Unit H}, t.Settled e →
    Settled (t ++ s) e
  | .eConst _, _ | .eEmbed _ _, _ | .eCompose _, _ | .eResonate _, _ => trivial
  | .eFieldAccess field source, h => by
    obtain ⟨entry, hentry⟩ := Option.isSome_iff_exists.1 h.2
    refine ⟨h.1.append s, ?_⟩
    rw [h.1.keys_append s, find_append hentry s]
    rfl
  | .eApply f a, h => by
    obtain ⟨entry, hentry⟩ := Option.isSome_iff_exists.1 h.1.2
    obtain ⟨entry', hentry'⟩ := Option.isSome_iff_exists.1 h.2.2
    refine ⟨⟨h.1.1.append s, ?_⟩, h.2.1.append s, ?_⟩
    · rw [h.1.1.keys_append s, find_append hentry s]
      rfl
    · rw [h.2.1.keys_append s, find_append hentry' s]
      rfl

/-- Every entry is found by the keys of its own expression, and only by them. -/
structure Exact (t : InternTable Unit H) : Prop where
  settled : ∀ entry ∈ t, t.Settled entry.expr
  keys : ∀ entry ∈ t, t.keys entry.expr = (entry.hash, entry.key)
  distinct : (t.map fun entry => (entry.hash, entry.key)).Nodup
  ids : (t.map (·.id)).Nodup
  le_length : ∀ entry ∈ t, entry.id ≤ t.length

theorem exact_nil : Exact ([] : InternTable Unit H) :=
  ⟨fun _ h => absurd h not_mem_nil, fun _ h => absurd h not_mem_nil, nodup_nil,
    nodup_nil, fun _ h => absurd h not_mem_nil⟩

omit [Hashing H] in
theorem find_eq_some {hash : UInt64} {key : InternKey H} (h : t.find hash key = some entry) :
    entry ∈ t ∧ (entry.hash, entry.key) = (hash, key) := by
  have hkey := List.find?_some h
  simp only [decide_eq_true_eq] at hkey
  exact ⟨mem_of_find?_eq_some h, by rw [hkey.1, hkey.2]⟩

theorem Exact.find (h : t.Exact) (hentry : entry ∈ t) : t.find entry.hash entry.key = some entry := by
  cases hfind : t.find entry.hash entry.key with
  | none =>
    have hnone := List.find?_eq_none.1 hfind entry hentry
    simp at hnone
  | some entry' =>
    obtain ⟨hmem, hkey⟩ := find_eq_some hfind
    rw [inj_on_of_nodup_map h.distinct hmem hentry hkey]

theorem Exact.idOf (h : t.Exact) (hentry : entry ∈ t) : t.idOf (entry.hash, entry.key) = entry.id := by
  rw [InternTable.idOf, h.find hentry]
  rfl

theorem Exact.insert (h : t.Exact) {e : Expr Unit H} (he : t.Settled e)
    (hnew : t.find (t.keys e).1 (t.keys e).2 = none) :
    Exact (t ++ [⟨(t.keys e).1, (t.keys e).2, t.length + 1, e⟩]) where
  settled entry hentry := by
    rcases mem_append.1 hentry with hentry | hentry
    · exact (h.settled entry hentry).append _
    · obtain rfl := mem_singleton.1 hentry
      exact he.append _
  keys entry hentry := by
    rcases mem_append.1 hentry with hentry | hentry
    · rw [(h.settled entry hentry).keys_append, h.keys entry hentry]
    · obtain rfl := mem_singleton.1 hentry
      exact he.keys_append _
  distinct := by
    rw [map_append, map_singleton, ← concat_eq_append]
    refine h.distinct.concat fun hmem => ?_
    obtain ⟨entry, hentry, hkey⟩ := mem_map.1 hmem
    have hnone := List.find?_eq_none.1 hnew entry hentry
    simp only [Prod.mk.injEq] at hkey
    simp [hkey] at hnone
  ids := by
    rw [map_append, map_singleton, ← concat_eq_append]
    refine h.ids.concat fun hmem => ?_
    obtain ⟨entry, hentry, hid⟩ := mem_map.1 hmem
    have hle := h.le_length entry hentry
    simp only at hid
    omega
  le_length entry hentry := by
    rw [length_append, length_singleton]
    rcases mem_append.1 hentry with hentry | hentry
    · exact Nat.le_succ_of_le (h.le_length entry hentry)
    · obtain rfl := mem_singleton.1 hentry
      exact le_rfl

end InternTable

/-! ### Runs -/

namespace Interning

variable {x : Interning H}

/-- What holds after any calls: an expression that was returned is the entry with the keys of its
arguments, and every entry was made of its own arguments once. -/
structure Inv (x : Interning H) : Prop where
  exact : x.table.Exact
  made : ∀ m ∈ x.made, ∃ entry ∈ x.table, entry.id = m.id ∧ entry.expr = m.expr ∧
    (entry.hash, entry.key) = m.arguments.keys
  maker : ∀ entry ∈ x.table, ∃ m ∈ x.made, m.id = entry.id ∧
    ∀ v, m.arguments = .const v → m.expr = .eConst v

theorem inv_nil : Inv (⟨[], []⟩ : Interning H) :=
  ⟨InternTable.exact_nil, fun _ h => absurd h not_mem_nil, fun _ h => absurd h not_mem_nil⟩

theorem Inv.construct (hx : x.Inv) {arguments : Arguments H} {e : Expr Unit H}
    (he : x.table.Settled e) (hkeys : x.table.keys e = arguments.keys)
    (hconst : ∀ v, arguments = .const v → e = .eConst v) : (x.construct arguments e).Inv := by
  unfold Interning.construct InternTable.intern
  cases hfind : x.table.find (x.table.keys e).1 (x.table.keys e).2 with
  | some entry =>
    obtain ⟨hentry, hkey⟩ := InternTable.find_eq_some hfind
    refine ⟨hx.exact, fun m hm => ?_, fun entry' hentry' => ?_⟩
    · rcases mem_append.1 hm with hm | hm
      · exact hx.made m hm
      · obtain rfl := mem_singleton.1 hm
        refine ⟨entry, hentry, ?_, rfl, hkey.trans hkeys⟩
        change entry.id = x.table.idOf (x.table.keys e)
        rw [← hx.exact.idOf hentry, hkey]
    · obtain ⟨m, hm, hmaker⟩ := hx.maker entry' hentry'
      exact ⟨m, mem_append_left _ hm, hmaker⟩
  | none =>
    have hexact := hx.exact.insert he hfind
    have hlast : (⟨(x.table.keys e).1, (x.table.keys e).2, x.table.length + 1, e⟩ :
        InternEntry Unit H) ∈ x.table ++ [⟨(x.table.keys e).1, (x.table.keys e).2,
          x.table.length + 1, e⟩] := mem_append_right _ (mem_singleton.2 rfl)
    have hid := hexact.idOf hlast
    refine ⟨hexact, fun m hm => ?_, fun entry hentry => ?_⟩
    · rcases mem_append.1 hm with hm | hm
      · obtain ⟨entry, hentry, hrest⟩ := hx.made m hm
        exact ⟨entry, mem_append_left _ hentry, hrest⟩
      · obtain rfl := mem_singleton.1 hm
        exact ⟨_, hlast, hid.symm, rfl, hkeys⟩
    · rcases mem_append.1 hentry with hentry | hentry
      · obtain ⟨m, hm, hmaker⟩ := hx.maker entry hentry
        exact ⟨m, mem_append_left _ hm, hmaker⟩
      · obtain rfl := mem_singleton.1 hentry
        exact ⟨_, mem_append_right _ (mem_singleton.2 rfl), hid, hconst⟩

theorem Inv.settled (hx : x.Inv) {m : Made H} (hm : m ∈ x.made) :
    x.table.Settled m.expr ∧ (x.table.find (x.table.keys m.expr).1 (x.table.keys m.expr).2).isSome ∧
      x.table.idOf (x.table.keys m.expr) = m.id := by
  obtain ⟨entry, hentry, hid, hexpr, -⟩ := hx.made m hm
  rw [← hexpr, ← hid, hx.exact.keys entry hentry, hx.exact.find hentry, hx.exact.idOf hentry]
  exact ⟨hx.exact.settled entry hentry, rfl, rfl⟩

theorem Inv.step (hx : x.Inv) (call : Construction H) : (x.step call).Inv := by
  cases call with
  | newEConst value =>
    exact hx.construct trivial rfl fun v h => by rw [Arguments.const.inj h]
  | newECompose atoms => exact hx.construct trivial rfl fun v h => by cases h
  | newEApply func arg =>
    simp only [Interning.step]
    split
    · rename_i f a hf ha
      obtain ⟨hfs, hfound, hfid⟩ := hx.settled (mem_of_getElem? hf)
      obtain ⟨has, hfound', haid⟩ := hx.settled (mem_of_getElem? ha)
      refine hx.construct ⟨⟨hfs, hfound⟩, has, hfound'⟩ ?_ fun v h => by cases h
      simp only [InternTable.keys, hfid, haid]
      rfl
    · exact hx

theorem Inv.foldl (calls : List (Construction H)) : ∀ {x : Interning H}, x.Inv →
    (calls.foldl Interning.step x).Inv := by
  induction calls with
  | nil => exact fun hx => hx
  | cons call calls ih => exact fun hx => ih (hx.step call)

theorem inv_run (calls : List (Construction H)) : (run calls).Inv := inv_nil.foldl calls

theorem Inv.id_eq_iff (hx : x.Inv) {m m' : Made H} (hm : m ∈ x.made) (hm' : m' ∈ x.made) :
    m.id = m'.id ↔ m.arguments.keys = m'.arguments.keys := by
  obtain ⟨entry, hentry, hid, -, hkey⟩ := hx.made m hm
  obtain ⟨entry', hentry', hid', -, hkey'⟩ := hx.made m' hm'
  rw [← hid, ← hid', ← hkey, ← hkey']
  constructor
  · intro h
    rw [inj_on_of_nodup_map hx.exact.ids hentry hentry' h]
  · intro h
    rw [inj_on_of_nodup_map hx.exact.distinct hentry hentry' h]

omit [DecidableEq H] in
theorem keys_eq_iff {a b : Arguments H}
    (hconst : ∀ v w, a = .const v → b = .const w → a.keys = b.keys → v = w) : a.keys = b.keys ↔ a = b := by
  refine ⟨fun h => ?_, fun h => by rw [h]⟩
  have hkey : a.keys.2 = b.keys.2 := by rw [h]
  cases a <;> cases b <;> simp only [Arguments.keys, reduceCtorEq, InternKey.compose.injEq,
    InternKey.apply.injEq] at hkey
  · rw [hconst _ _ rfl rfl h]
  · rw [hkey]
  · rw [hkey.1, hkey.2]

/-- **Interning is transparent exactly if no two different constants are taken for one another**: after
any calls of the constructors. -/
theorem transparent_iff (calls : List (Construction H)) :
    (run calls).Transparent ↔ (run calls).TellsApart := by
  have hx := inv_run calls
  constructor
  · rintro ⟨-, hsame⟩ m hm m' hm' v w hv hw hkeys
    have hid := (hx.id_eq_iff hm hm').2 (by rw [hv, hw, hkeys])
    exact Arguments.const.inj (hv.symm.trans (((hsame m hm m' hm').1 hid).trans hw))
  · intro h
    have hsame : ∀ m ∈ (run calls).made, ∀ m' ∈ (run calls).made,
        m.id = m'.id ↔ m.arguments = m'.arguments := by
      intro m hm m' hm'
      rw [hx.id_eq_iff hm hm']
      refine keys_eq_iff fun v w hv hw hkeys => h m hm m' hm' v w hv hw ?_
      rw [← hv, ← hw, hkeys]
    refine ⟨fun m hm v hv => ?_, hsame⟩
    -- the call that has made the entry had the same arguments
    obtain ⟨entry, hentry, hid, hexpr, -⟩ := hx.made m hm
    obtain ⟨maker, hmaker, hid', hvalue⟩ := hx.maker entry hentry
    obtain ⟨entry', hentry', hid'', hexpr', -⟩ := hx.made maker hmaker
    have hargs := (hsame maker hmaker m hm).1 (hid'.trans hid)
    have hentries := inj_on_of_nodup_map hx.exact.ids hentry' hentry (hid''.trans hid')
    rw [← hexpr, ← hentries, hexpr', hvalue v (hargs.trans hv)]

end Interning

section Instances

local instance internedHashing : Hashing Str :=
  ⟨id, id, fun s => (s.foldl (fun n (b : UInt8) => 31 * n + b.toNat) 7).toUInt64⟩

def setOf (members : List Str) : Value Unit :=
  .vRecord () (members.foldl (fun fields m => SortedMap.put m (.vInt 1) fields) [])

/-- The set of `a` and `b` is made first. The set whose only member is `a`, seven zero bytes, a one and
`b` has the same bytes, and `NewEConst` returns the other one for it. -/
theorem newEConst_returns_other_set : (Interning.run [.newEConst (setOf [str "a", str "b"]),
      .newEConst (setOf [str "a" ++ [0, 0, 0, 0, 0, 0, 0, 1] ++ str "b"])] :
        Interning Str).made.map (fun m => (m.id, m.expr)) =
      [(1, .eConst (setOf [str "a", str "b"])), (1, .eConst (setOf [str "a", str "b"]))] ∧
    setOf [str "a" ++ [0, 0, 0, 0, 0, 0, 0, 1] ++ str "b"] ≠ setOf [str "a", str "b"] := by
  refine ⟨?_, ?_⟩ <;> decide +kernel

end Instances

end Wavicle.Core
