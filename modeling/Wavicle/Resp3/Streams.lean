import Wavicle.Resp3.Updates

/-! # The ids of streams

`XADD` takes every well-formed id, and the milliseconds of the clock for `*`, and never looks at the ids that the
stream has. A field `_id` among its arguments replaces the id of the entry that is stored. So the entries of a
stream are in order exactly if the ids that they are given are, and the store takes them in.

* `Server.ids`: the ids of the entries that a key holds, as `XRANGE` reads them.
* `AddsInOrder`: an accepted `XADD` adds one entry with an id after all others, a refused one changes nothing.
* `Server.OrderedGrant`: the condition for it, on the state before the command.
* `stream_ordered_iff`: what it comes to for a sequence of commands. -/

namespace Wavicle.Resp3

open Lib Wavicle.Core Storage Engine Prog Server

section

variable {H : Type} [DecidableEq H] [Hashing H] {s t : Server (World Ref H) H} {key : Str}

/-! ### The entries of a stream -/

variable [Floats]

/-- The ids of the entries of an array, as `XRANGE` reads them. -/
def entryIDs (v : Option (Value Ref)) : List Str :=
  ((asArray v).map (·.2)).getD [] |>.map fun e => entryID (entryFields e)

/-- The ids of the entries that a key holds. -/
def Server.ids (s : Server (World Ref H) H) (key : Str) : List Str := entryIDs ((s.value key).bind id)

theorem length_entryIDs_change (c : Change) (v : Option (Value Ref)) :
    (entryIDs (v.map (Value.change c))).length = (entryIDs v).length := by
  have helems : ∀ elems : List (Value Ref), (Value.change.changeElems c elems).length = elems.length := by
    intro elems
    induction elems with
    | nil => rfl
    | cons v vs ih => exact congrArg (· + 1) ih
  have hset : ∀ (r : Ref) (elems : List (Value Ref)), (c.onElems r elems).length = elems.length := by
    intro r elems
    cases c with
    | delete => rfl
    | assign id index v =>
      unfold Change.onElems
      dsimp only
      split_ifs
      · exact List.length_set
      · rfl
  unfold entryIDs
  rw [List.length_map, List.length_map]
  match v with
  | some (.vArray r elems) => exact (hset r _).trans (helems elems)
  | none | some .vNull | some (.vBool _) | some (.vInt _) | some (.vFloat _) | some (.vString _)
  | some (.vBytes _) | some (.vRecord _ _) => rfl

theorem length_ids_changed (s : Server (World Ref H) H) (cs : List Change) (key : Str) :
    ((s.changed cs).ids key).length = (s.ids key).length := by
  have hatom : ∀ (cs : List Change) (a : CausalAtom Ref H),
      (entryIDs (cs.foldl (fun a c => a.change c) a).expr.constValue).length =
        (entryIDs a.expr.constValue).length := by
    intro cs
    induction cs with
    | nil => exact fun _ => rfl
    | cons c cs ih =>
      intro a
      refine (ih (a.change c)).trans ?_
      obtain ⟨hash, expr, path, parents, clock, timestamp, expiresAt⟩ := a
      cases expr with
      | eConst v => exact length_entryIDs_change c (some v)
      | _ => rfl
  unfold ids value
  rw [s.live_changed]
  cases s.live key with
  | none => rfl
  | some a => exact hatom cs a

omit [DecidableEq H] in
theorem ids_of_live {a : CausalAtom Ref H} (h : t.live key = some a) : t.ids key = entryIDs a.expr.constValue := by
  unfold ids value
  rw [h]
  rfl

omit [DecidableEq H] in
theorem ids_of_live_none (h : t.live key = none) : t.ids key = [] := by
  unfold ids value
  rw [h]
  rfl

/-! ### One command -/

/-- Both are ids, and the first is before the second. -/
def IDLess (x y : Str) : Prop :=
  ∃ a b, parseStreamID x = some a ∧ parseStreamID y = some b ∧ idBefore a b = true

/-- What an `XADD` adds, and to what: the command is well formed, and its key may hold a stream. -/
def Server.grants (s : Server (World Ref H) H) (key id : Str) (rest : List Str) : Option (Slice × Fields) :=
  match pairs rest, requestedID s.store.now id with
  | some fields, some id =>
    if s.admits key .stream then (s.slice key).map fun arr => (arr, streamEntry id fields) else none
  | _, _ => none

variable [Runtime]

/-- The array with the new entry, and what is set in place for it. -/
def Server.extended (s : Server (World Ref H) H) (arr : Slice) (entry : Fields) : List Change × Slice × ℕ :=
  grown (s.nextRef + 1) arr [.vRecord (.map s.nextRef) entry]

/-- The constant that is interned for the array with the new entry. -/
def Server.streamConst (s : Server (World Ref H) H) (arr : Slice) (entry : Fields) : Value Ref :=
  (s.changed (s.extended arr entry).1).constant (.vArray (s.extended arr entry).2.1.1 (s.extended arr entry).2.1.2)

/-- **The condition.** If an entry is added, the array is not dropped as a duplicate and not evicted at once, and the
constant that is interned for it has one more id than the key, after all others. This is the id of the entry, unless
another array has been interned with the same hash. -/
def Server.OrderedGrant (s : Server (World Ref H) H) (key id : Str) (rest : List Str) : Prop :=
  ∀ arr entry, s.grants key id rest = some (arr, entry) →
    (s.changed (s.extended arr entry).1).store.repeats (.eConst (s.streamConst arr entry)) key zeroTime = false ∧
    (s.changed (s.extended arr entry).1).store.retains (.eConst (s.streamConst arr entry)) key zeroTime = true ∧
    ∃ i, entryIDs (some (s.streamConst arr entry)) = s.ids key ++ [i] ∧ ∀ j ∈ s.ids key, IDLess j i

variable [Spaces] [Printing] [Unicode]

omit [DecidableEq H] [Printing] [Unicode] in
theorem Server.update_xadd (s : Server (World Ref H) H) (key id : Str) (rest : List Str) :
    s.update key .xadd (id :: rest) = (s.grants key id rest).elim .nothing fun g =>
      .put (s.extended g.1 g.2).1 (.vArray (s.extended g.1 g.2).2.1.1 (s.extended g.1 g.2).2.1.2) := by
  unfold Server.update Server.grants
  dsimp only
  cases pairs rest with
  | none => rfl
  | some fields =>
    cases requestedID s.store.now id with
    | none => rfl
    | some i =>
      dsimp only
      split_ifs
      · cases s.slice key <;> rfl
      · rfl

omit [Floats] [Spaces] [Printing] [Unicode] in
/-- `XADD` succeeds if and only if it adds an entry. -/
theorem ends_xaddReply (hs : s.store.Inv) (key id : Str) (rest : List Str) :
    Ends (shardedStep H) (xadd (key :: id :: rest)) s fun r _ => Success r ↔ (s.grants key id rest).isSome := by
  have hrefused : ∀ {r : Str} {b : UInt8}, r.head? = some b → b ∉ [58, 43, 36, 42] →
      (Success r ↔ (none : Option (Slice × Fields)).isSome) :=
    fun hr hb => iff_of_false (not_success hr hb) Bool.false_ne_true
  have hstored : ∀ i arr fields u, Ends (shardedStep H) (storeEntry key i arr fields) u
      fun r _ => Success r ↔ (some (arr, streamEntry i fields)).isSome := by
    intro i arr fields u
    have hany : ∀ {α : Type} (p : ServerProg H α) v, Ends (shardedStep H) p v fun _ _ => True :=
      fun _ _ => trivial
    refine (hany _ u).bind fun _ _ _ => (hany _ _).bind fun _ _ _ => (hany _ _).bind fun _ _ _ =>
      (hany _ _).bind fun _ _ _ => ends_pure ?_
    exact iff_of_true (success_formatBulkString i) rfl
  unfold xadd Server.grants
  dsimp only
  cases pairs rest with
  | none => exact ends_pure (hrefused rfl (by decide))
  | some fields =>
    refine (ends_guard hs key .stream).bind fun ok t ⟨hok, ht⟩ => ?_
    subst hok
    cases s.admits key .stream with
    | false =>
      refine ends_pure ?_
      cases requestedID s.store.now id <;> exact hrefused (b := 45) rfl (by decide)
    | true =>
      refine (ends_streamID ht id).bind fun i u ⟨hi, hu⟩ => ?_
      rw [← hi]
      cases i with
      | none => exact ends_pure (hrefused (b := 69) rfl (by decide))
      | some i =>
        refine (ends_curValue hu).bind fun v w ⟨hv, _⟩ => ?_
        subst hv
        unfold Server.slice
        simp only [if_true]
        cases s.value key with
        | none => exact hstored i _ fields w
        | some v =>
          dsimp only
          cases asArray v with
          | none => exact ends_pure (hrefused (b := 45) rfl (by decide))
          | some arr => exact hstored i arr fields w

/-- An accepted command adds one entry to the stream, with an id after those of all others, and a refused one
leaves the value of the key as it is. -/
def AddsInOrder (s : Server (World Ref H) H) (key id : Str) (rest : List Str) : Prop :=
  Ends (step (shardedBackend H)) (xadd (key :: id :: rest)) s fun r t =>
    (Success r → ∃ i, t.ids key = s.ids key ++ [i] ∧ ∀ j ∈ s.ids key, IDLess j i) ∧
      (¬ Success r → t.value key = s.value key)

omit [Printing] [Unicode] in
/-- The step: a command adds in order exactly if the condition holds before it. -/
theorem addsInOrder_iff (hs : s.store.Inv) (hl : s.store.cache.Limited) (key id : Str) (rest : List Str) :
    AddsInOrder s key id rest ↔ s.OrderedGrant key id rest := by
  have hreply := ends_xaddReply hs key id rest
  have happlies := ends_xaddUpdate hs key (id :: rest)
  rw [Server.update_xadd] at happlies
  unfold AddsInOrder OrderedGrant Ends at *
  beta_reduce at *
  rw [hreply]
  generalize ((xadd (key :: id :: rest)).run (shardedStep H) s).2 = t at happlies ⊢
  cases hgrants : s.grants key id rest with
  | none =>
    rw [hgrants] at happlies
    refine iff_of_true ⟨fun h => absurd h Bool.false_ne_true, fun _ => ?_⟩ fun arr entry h => by cases h
    exact congrArg (Option.map _) (happlies.live_of_none rfl)
  | some g =>
    obtain ⟨arr, entry⟩ := g
    rw [hgrants] at happlies
    have hlive := happlies.live_eq hs hl rfl
    change _ = if (s.changed (s.extended arr entry).1).store.repeats (.eConst (s.streamConst arr entry)) key zeroTime
      then (s.changed (s.extended arr entry).1).live key else _ at hlive
    constructor
    · rintro ⟨hadds, -⟩ arr' entry' heq
      cases heq
      obtain ⟨i, hi, hless⟩ := hadds rfl
      have hlength : (t.ids key).length = (s.ids key).length + 1 := by rw [hi]; exact List.length_append
      split_ifs at hlive with hrep hkept
      · have hids : t.ids key = (s.changed (s.extended arr entry).1).ids key := by
          unfold ids value
          rw [hlive]
        rw [hids, length_ids_changed] at hlength
        omega
      · rw [ids_of_live hlive] at hi
        exact ⟨Bool.eq_false_iff.2 hrep, hkept.1, i, hi, hless⟩
      · rw [ids_of_live_none hlive] at hlength
        cases hlength
    · intro h
      obtain ⟨hrep, hret, i, hi, hless⟩ := h arr entry rfl
      have hne : Expr.eConst (s.streamConst arr entry) ≠ (.eConst .vNull : Expr Ref H) := by
        intro hnull
        rw [Expr.eConst.inj hnull] at hi
        exact absurd hi (by simp [entryIDs, asArray])
      rw [hrep, if_neg Bool.false_ne_true, if_pos ⟨hret, hne⟩] at hlive
      exact ⟨fun _ => ⟨i, (ids_of_live hlive).trans hi, hless⟩, fun hnot => absurd rfl hnot⟩

/-! ### Runs -/

/-- The time of an `XADD`, and its arguments after the key. -/
abbrev Xadd := Time × Str × List Str

def Server.at (s : Server (World Ref H) H) (now : Time) : Server (World Ref H) H :=
  { s with store := { s.store with now := now } }

def Server.afterXadd (s : Server (World Ref H) H) (key : Str) (c : Xadd) : Server (World Ref H) H :=
  ((xadd (key :: c.2.1 :: c.2.2)).run (step (shardedBackend H)) (s.at c.1)).2

/-- Every command of a sequence adds in order. -/
def StaysInOrder (key : Str) : Server (World Ref H) H → List Xadd → Prop
  | _, [] => True
  | s, c :: cs => AddsInOrder (s.at c.1) key c.2.1 c.2.2 ∧ StaysInOrder key (s.afterXadd key c) cs

/-- Before every command of a sequence, the condition holds. -/
def OrderedGrants (key : Str) : Server (World Ref H) H → List Xadd → Prop
  | _, [] => True
  | s, c :: cs => (s.at c.1).OrderedGrant key c.2.1 c.2.2 ∧ OrderedGrants key (s.afterXadd key c) cs

omit [Printing] [Unicode] in
theorem staysInOrder_iff (key : Str) : ∀ (cs : List Xadd) {s : Server (World Ref H) H}, s.store.Inv →
    s.store.cache.Limited → (StaysInOrder key s cs ↔ OrderedGrants key s cs)
  | [], _, _, _ => Iff.rfl
  | c :: cs, s, hs, hl => by
    have hs' : (s.at c.1).store.Inv := ⟨hs.exact, hs.clock⟩
    have hinv : (s.afterXadd key c).store.Inv :=
      run_preserves (I := fun s => s.store.Inv) (shardedStep H) (fun _ op hs => inv_step hs op) _ (s.at c.1) hs'
    have hlim : (s.afterXadd key c).store.cache.Limited :=
      run_preserves (I := fun s => s.store.cache.Limited) (shardedStep H) (fun _ op hs => limited_step hs op) _
        (s.at c.1) hl
    exact and_congr (addsInOrder_iff hs' hl key c.2.1 c.2.2) (staysInOrder_iff key cs hinv hlim)

end

section Instances

open Plain

def emptyServer : Server (World Ref Str) Str := new (.init 0 0) 0

/-- A decidable form of the condition, for an id that is given. -/
theorem orderedGrant_of_all {s : Server (World Ref Str) Str} {key id i : Str} {rest : List Str}
    (h : ((s.grants key id rest).all fun g =>
      (s.changed (s.extended g.1 g.2).1).store.repeats (.eConst (s.streamConst g.1 g.2)) key zeroTime = false ∧
      (s.changed (s.extended g.1 g.2).1).store.retains (.eConst (s.streamConst g.1 g.2)) key zeroTime = true ∧
      entryIDs (some (s.streamConst g.1 g.2)) = s.ids key ++ [i]) = true)
    (hless : ∀ j ∈ s.ids key, IDLess j i) : s.OrderedGrant key id rest := by
  intro arr entry hgrants
  rw [hgrants, Option.all_some, decide_eq_true_iff] at h
  exact ⟨h.1, h.2.1, i, h.2.2, hless⟩

end Instances

end Wavicle.Resp3
