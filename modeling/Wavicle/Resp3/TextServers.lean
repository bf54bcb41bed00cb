import Wavicle.Resp3.Looking

/-! # Servers of texts

As long as clients use strings and hashes only and set no deadlines, every atom of the store is a text or a
tombstone and stays until it is overwritten or evicted. -/

namespace Wavicle.Resp3

open Lib Wavicle.Core Storage Prog

variable {H : Type} [DecidableEq H] [Hashing H]

/-! ### Interned texts -/

/-- The constants that are interned are strings. -/
structure StringTable (t : InternTable Ref H) : Prop where
  sound : t.Sound
  text : ∀ entry ∈ t, ∀ v, entry.expr = .eConst v → ∃ text, v = .vString text

omit [DecidableEq H] [Hashing H] in
theorem stringTable_nil : StringTable ([] : InternTable Ref H) :=
  ⟨List.forall_mem_nil _, List.forall_mem_nil _⟩

theorem InternTable.intern_cases (t : InternTable Ref H) (e : Expr Ref H) :
    (∃ entry ∈ t, t.intern e = (entry.expr, t)) ∨
      ∃ entry, entry.expr = e ∧ t.intern e = (e, t ++ [entry]) := by
  unfold InternTable.intern
  cases hfind : t.find (t.keys e).1 (t.keys e).2 with
  | some entry => exact Or.inl ⟨entry, List.mem_of_find?_eq_some hfind, rfl⟩
  | none => exact Or.inr ⟨_, rfl, rfl⟩

variable {e : Expr Ref H} {rest : List Str}

theorem StringTable.intern {t : InternTable Ref H} (ht : StringTable t)
    (he : ∀ v, e = .eConst v → ∃ text, v = .vString text) : StringTable (t.intern e).2 := by
  refine ⟨(ht.sound.intern e).2, ?_⟩
  rcases InternTable.intern_cases t e with ⟨entry, -, heq⟩ | ⟨entry, hexpr, heq⟩
  · rw [heq]
    exact ht.text
  · rw [heq]
    intro entry' hmem v hv
    rcases List.mem_append.1 hmem with hold | hnew
    · exact ht.text entry' hold v hv
    · obtain rfl := List.mem_singleton.1 hnew
      exact he v (hexpr.symm.trans hv)

theorem StringTable.intern_text {t : InternTable Ref H} (ht : StringTable t) (text : Str) :
    (t.intern (.eConst (.vString text))).1 = .eConst (.vString text) := by
  obtain ⟨u, hu, hbytes⟩ := (ht.sound.intern (.eConst (.vString text))).1.const _ rfl
  rcases InternTable.intern_cases t (.eConst (.vString text)) with ⟨entry, hmem, heq⟩ | ⟨_, -, heq⟩
  · rw [heq] at hu ⊢
    obtain ⟨text', rfl⟩ := ht.text entry hmem u hu
    have htext : text' = text := hbytes
    exact hu.trans (by rw [htext])
  · rw [heq]

/-! ### The invariant -/

/-- A string or a tombstone. -/
def HoldsText (e : Expr Ref H) : Prop := e = .eConst .vNull ∨ ∃ text, e = .eConst (.vString text)

/-- The server holds texts and tombstones without deadlines, and is not stale. -/
structure Texts (s : Server (World Ref H) H) : Prop where
  inv : s.store.Inv
  resident : ∀ p a, s.store.cache.resident p = some a → a.expiresAt = zeroTime ∧ HoldsText a.expr
  interned : StringTable s.interned
  healthy : s.stale = none

theorem texts_new (maxBytes : ℤ) (now : Time) :
    Texts (Server.new (.init maxBytes now) now : Server (World Ref H) H) :=
  ⟨World.inv_init maxBytes now, (fun _ _ h => by cases h), stringTable_nil, rfl⟩

variable {s t : Server (World Ref H) H}

theorem Texts.current (hs : Texts s) : s.store.current = s.store.cache.resident := by
  funext p
  unfold World.current ShardedFrontierCache.current
  cases hres : s.store.cache.resident p with
  | none => rfl
  | some a =>
    have hexpired : a.expired s.store.now = false := by
      unfold CausalAtom.expired
      rw [(hs.resident p a hres).1]
      simp
    rw [Option.bind_some, hexpired]
    rfl

theorem Texts.mem_frontierPaths (hs : Texts s) {p : Str} :
    p ∈ s.store.cache.frontierPaths s.store.now ↔ ∃ a, s.store.cache.resident p = some a := by
  rw [hs.inv.mem_frontierPaths, ShardedFrontierCache.listed, Option.any_eq_true]
  constructor
  · rintro ⟨a, ha, -⟩
    exact ⟨a, ha⟩
  · rintro ⟨a, ha⟩
    exact ⟨a, ha, decide_eq_true (Or.inl (hs.resident p a ha).1)⟩

theorem Texts.same (hs : Texts s) (h : s.Same t) : Texts t where
  inv := h.inv hs.inv
  resident p a ha := hs.resident p a (h.resident ▸ ha)
  interned := h.interned ▸ hs.interned
  healthy := h.stale.trans hs.healthy

theorem Texts.recorded (hs : Texts s) (key : Str) : Texts (s.recorded key) :=
  ⟨hs.inv, hs.resident, hs.interned, hs.healthy⟩

theorem Texts.withTypes (hs : Texts s) (types : GoMap Str KeyType) : Texts { s with keyTypes := types } :=
  ⟨hs.inv, hs.resident, hs.interned, hs.healthy⟩

theorem Texts.append (hs : Texts s) (he : HoldsText e) (p : Str) :
    Texts { s with store := (s.store.append e p zeroTime).2 } := by
  refine ⟨hs.inv.append e p zeroTime, fun q a ha => ?_, hs.interned, hs.healthy⟩
  rcases World.resident_of_append ha with hold | ⟨-, rfl⟩
  · exact hs.resident q a hold
  · exact ⟨rfl, he⟩

theorem Texts.intern (hs : Texts s) (he : ∀ v, e = .eConst v → ∃ text, v = .vString text) :
    Texts { s with interned := (s.interned.intern e).2 } :=
  ⟨hs.inv, hs.resident, hs.interned.intern he, hs.healthy⟩

theorem Texts.tick (hs : Texts s) {now : Time} (h : s.store.now ≤ now) :
    Texts { s with store := { s.store with now := now } } :=
  ⟨hs.inv.step (.tick now h), hs.resident, hs.interned, hs.healthy⟩

theorem Texts.step_newEConst (hs : Texts s) (text : Str) :
    (s.step (shardedBackend H) (.newEConst (.vString text))).1 = .vString text := by
  change ((s.interned.intern (.eConst (.vString text))).1.constValue).getD (.vString text) = _
  rw [hs.interned.intern_text]
  rfl

theorem Texts.live_eq_some (hs : Texts s) {p : Str} {a : CausalAtom Ref H} (ha : s.live p = some a) :
    s.store.cache.resident p = some a ∧ ∃ text, a.expr = .eConst (.vString text) := by
  obtain ⟨hcur, hlive⟩ := Option.filter_eq_some_iff.1 ha
  rw [hs.current] at hcur
  refine ⟨hcur, ?_⟩
  rcases (hs.resident p a hcur).2 with hnull | htext
  · unfold isTombstone at hlive
    rw [hnull] at hlive
    cases hlive
  · exact htext

/-! ### Texts by path -/

def textOf : Expr Ref H → Option Str
  | .eConst (.vString text) => some text
  | _ => none

def Server.textAt (s : Server (World Ref H) H) (p : Str) : Option Str :=
  (s.store.cache.resident p).bind fun a => textOf a.expr

theorem Server.Same.textAt (h : s.Same t) : t.textAt = s.textAt := by
  unfold Server.textAt
  rw [h.resident]

theorem Texts.value_eq (hs : Texts s) (p : Str) :
    s.value p = (s.textAt p).map fun text => some (.vString text) := by
  unfold Server.value Server.live Server.textAt
  rw [hs.current]
  cases hres : s.store.cache.resident p with
  | none => rfl
  | some a =>
    rcases (hs.resident p a hres).2 with hnull | ⟨text, htext⟩
    · have htomb : isTombstone a = true := by
        unfold isTombstone
        rw [hnull]
      rw [Option.filter_some, htomb, Option.bind_some, hnull]
      rfl
    · have htomb : isTombstone a = false := by
        unfold isTombstone
        rw [htext]
      rw [Option.filter_some, htomb, Option.bind_some, htext]
      simp [textOf, htext, Expr.constValue]

theorem Texts.isSome_live (hs : Texts s) (p : Str) : (s.live p).isSome = (s.textAt p).isSome := by
  have hvalue := congrArg Option.isSome (hs.value_eq p)
  unfold Server.value at hvalue
  rwa [Option.isSome_map, Option.isSome_map] at hvalue

theorem Texts.swept (hs : Texts s) :
    { s with store := { s.store with cache := s.store.cache.sweepExpired s.store.now } } = s := by
  have hcache : s.store.cache.sweepExpired s.store.now = s.store.cache := by
    refine ShardedFrontierCache.sweepExpired_eq_self fun i p a ha => ?_
    obtain ⟨rfl, -⟩ := hs.inv.exact.owner i p a ha
    unfold CausalAtom.expired
    rw [(hs.resident p a ha).1]
    simp
  rw [hcache]

/-- **An append that evicts nothing**: the path has the new expression, or one with the same bytes that was
there before; the other paths have what they had. -/
theorem Texts.resident_append (hs : Texts s) {p : Str}
    (hev : s.store.cache.evicts s.store.now e p zeroTime = false) :
    (∃ a, (s.store.append e p zeroTime).2.cache.resident p = some a ∧
      (a.expr = e ∨ s.store.cache.resident p = some a ∧ a.expr.serialize = e.serialize)) ∧
    ∀ q ≠ p, (s.store.append e p zeroTime).2.cache.resident q = s.store.cache.resident q := by
  refine ⟨?_, fun q hq => World.resident_append_ne hev hq⟩
  have hnot : ¬ s.store.Evicts e p zeroTime :=
    not_not.2 (congrArg ShardedFrontierCache.resident (World.cache_append_of_not_evicts hev))
  rcases hs.inv.resident_append hnot with ⟨old, hold, -, hsame, hres⟩ | ⟨-, hres⟩
  · obtain ⟨-, u, v, hu, hv, hbytes⟩ := (sameAtomContent_iff _ _).1 hsame
    refine ⟨old, hres, Or.inr ⟨hold, ?_⟩⟩
    have he' : e = .eConst v := hv
    rw [hu, he', Expr.serialize, Expr.serialize, hbytes]
  · exact ⟨_, hres, Or.inl rfl⟩

/-! ### Commands -/

variable [Floats] [Spaces] [Printing] [Unicode] [Runtime]

theorem handleCommand_core {fuel : ℕ} {name upper : Str} {cmd : CoreCommand}
    (hname : toUpper name = upper) (h : coreNames.lookup upper = some cmd) :
    (handleCommand fuel (name :: rest) : ServerProg H Outcome) = runCore fuel cmd rest := by
  unfold handleCommand
  simp only [hname, h]

theorem handleCommand_extended {fuel : ℕ} {name upper : Str} {cmd : ExtendedCommand}
    (hname : toUpper name = upper) (hcore : coreNames.lookup upper = none)
    (h : extendedNames.lookup upper = some cmd) :
    (handleCommand fuel (name :: rest) : ServerProg H Outcome) = runExtended cmd rest := by
  unfold handleCommand
  simp only [hname, hcore, h]

theorem Texts.handle_extended (hs : Texts s) {fuel : ℕ} {name upper : Str} {cmd : ExtendedCommand}
    (hname : toUpper name = upper) (hcore : coreNames.lookup upper = none)
    (h : extendedNames.lookup upper = some cmd) : s.handle (shardedBackend H) fuel (name :: rest) =
      (.ok ((handleExtended cmd rest).run (shardedStep H) s).1,
        ((handleExtended cmd rest).run (shardedStep H) s).2) := by
  unfold Server.handle
  rw [handleCommand_extended hname hcore h]
  unfold runExtended
  dsimp only
  split_ifs
  · rw [run_unlessStale, hs.healthy, Option.elim_none, run_bind]
    rfl
  · rw [run_bind]
    rfl

end Wavicle.Resp3
