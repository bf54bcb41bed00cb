import Wavicle.Storage.ShardedRuns

/-! # Reading back a write

`AppendAtom` drops a constant whose bytes and deadline are those of the resident one. The bytes are
`Value.serialize`, which forgets the constructor, so a resident value may be kept in the place of a different
one. -/

namespace Wavicle.Storage

open Lib Wavicle.Core ShardedFrontierCache

section

variable {ι H : Type} [DecidableEq H] [Hashing H]

omit [DecidableEq H] [Hashing H] in
theorem sameAtomContent_iff (a b : CausalAtom ι H) :
    sameAtomContent a b = true ↔ unixNano a.expiresAt = unixNano b.expiresAt ∧
      ∃ u v, a.expr = .eConst u ∧ b.expr = .eConst v ∧ u.serialize = v.serialize := by
  unfold sameAtomContent
  split_ifs with h
  · simp [h]
  · rw [not_not] at h
    cases ha : a.expr <;> cases hb : b.expr <;> simp [h]

namespace World

/-- The append pushes the cache over its ceiling, and an entry is evicted. -/
def Evicts (w : World ι H) (expr : Expr ι H) (path : Str) (expiresAt : Time) : Prop :=
  (w.append expr path expiresAt).2.cache.resident ≠
    (w.cache.inserted w.now expr path expiresAt).resident

variable {path : Str} {w : World ι H}

theorem not_evicts_of_not_overCeiling {expr : Expr ι H} {expiresAt : Time}
    (h : (w.cache.inserted w.now expr path expiresAt).overCeiling = false) :
    ¬ w.Evicts expr path expiresAt := by
  unfold Evicts World.append ShardedFrontierCache.appendAtom inserted at *
  simp only [not_not]
  split
  · rename_i heq
    rw [heq]
  · rename_i heq
    rw [heq] at h ⊢
    simp only at h
    simp [h]

/-- After `AppendAtom(EConst v, path, deadline)`, every `GetCurrent(path)` up to the deadline returns
an atom with the value `v`. -/
def ReadsBack (w : World ι H) (v : Value ι) (path : Str) (deadline : Time) : Prop :=
  ∀ t, w.now ≤ t → deadline = zeroTime ∨ t ≤ deadline →
    ∃ a, ((w.append (.eConst v) path deadline).2.cache.getCurrent t path).1 = some a ∧
      a.expr = .eConst v

/-- In a sequential run the clock guard never fires; a resident atom is kept exactly if it has the
same content and another hash. -/
theorem Inv.keeps_ne_none_iff (hw : w.Inv) {old : CausalAtom ι H}
    (hold : w.cache.resident path = some old) (expr : Expr ι H) (expiresAt : Time) :
    keeps old (w.mint expr path expiresAt) ≠ none ↔
      old.hash ≠ (w.mint expr path expiresAt).hash ∧
        sameAtomContent old (w.mint expr path expiresAt) = true := by
  have hclock : ¬ old.logicalClock > (w.mint expr path expiresAt).logicalClock := by
    have := hw.clock old (hw.exact.logged _ _ _ hold)
    change ¬ old.logicalClock > w.cache.clock + 1
    omega
  unfold keeps
  rw [if_neg hclock]
  split_ifs with h
  · simp [h]
  · simpa using h

/-- The resident atom after an append that evicts nothing: the new one, or the one that was kept. -/
theorem Inv.resident_append (hw : w.Inv) {expr : Expr ι H} {expiresAt : Time}
    (hev : ¬ w.Evicts expr path expiresAt) : (∃ old, w.cache.resident path = some old ∧
        old.hash ≠ (w.mint expr path expiresAt).hash ∧
        sameAtomContent old (w.mint expr path expiresAt) = true ∧
        (w.append expr path expiresAt).2.cache.resident path = some old) ∨
      (∀ old, w.cache.resident path = some old → ¬ (old.hash ≠ (w.mint expr path expiresAt).hash ∧
            sameAtomContent old (w.mint expr path expiresAt) = true)) ∧
        (w.append expr path expiresAt).2.cache.resident path = some (w.mint expr path expiresAt) := by
  rw [Evicts, not_not] at hev
  rw [hev]
  rcases insertAtom_spec { w.cache with clock := w.cache.clock + 1 }
    (w.mint expr path expiresAt) with ⟨-, hput, hkeep⟩ | ⟨-, hsame, old, hold, hkeep⟩
  · refine Or.inr ⟨fun old hold => ?_, ?_⟩
    · rw [← hw.keeps_ne_none_iff hold, not_not]
      exact hkeep old hold
    · have hres := congrFun hput.resident path
      rwa [show (w.mint expr path expiresAt).path = path from rfl, Function.update_self] at hres
  · obtain ⟨hhash, hcontent⟩ := (hw.keeps_ne_none_iff hold expr expiresAt).1 hkeep
    exact Or.inl ⟨old, hold, hhash, hcontent, (congrFun hsame.resident path).trans hold⟩

omit [DecidableEq H] [Hashing H] in
theorem expired_eq_false_iff (a : CausalAtom ι H) (t : Time) :
    a.expired t = false ↔ a.expiresAt = zeroTime ∨ t ≤ a.expiresAt := by
  simp [CausalAtom.expired, or_iff_not_imp_left]

omit [DecidableEq H] in
theorem getCurrent_eq_some {f : ShardedFrontierCache ι H} {t : Time} {r : CausalAtom ι H}
    (hr : f.resident path = some r) {v : Value ι} :
    (∃ a, (f.getCurrent t path).1 = some a ∧ a.expr = .eConst v) ↔
      (r.expiresAt = zeroTime ∨ t ≤ r.expiresAt) ∧ r.expr = .eConst v := by
  simp only [getCurrent_fst, current_eq_some, hr,
    Option.some.injEq, expired_eq_false_iff]
  constructor
  · rintro ⟨a, ⟨rfl, hlive⟩, hexpr⟩
    exact ⟨hlive, hexpr⟩
  · rintro ⟨hlive, hexpr⟩
    exact ⟨r, ⟨rfl, hlive⟩, hexpr⟩

end World

end

/-- **Read your write, exactly.** In every reachable state and for every value and deadline, an
append that evicts nothing is read back until its deadline if and only if no resident constant takes
its place: each one with the same bytes and the same deadline in `UnixNano` (and not, against all
odds, the very hash of the new atom) has the same value and a deadline that is not earlier. An
append whose deadline has already passed cannot be read at all. -/
theorem World.readsBack_iff {H : Type} [DecidableEq H] [Hashing H] {w : World Unit H}
    (hw : w.Reachable) {v : Value Unit} {path : Str} {deadline : Time}
    (hev : ¬ w.Evicts (.eConst v) path deadline) : w.ReadsBack v path deadline ↔
      ∀ old u, w.cache.resident path = some old → old.expr = .eConst u →
        u.serialize = v.serialize → unixNano old.expiresAt = unixNano deadline →
        old.hash ≠ (w.mint (.eConst v) path deadline).hash → deadline = zeroTime ∨ w.now ≤ deadline →
          u = v ∧ (old.expiresAt = zeroTime ∨ deadline ≠ zeroTime ∧ deadline ≤ old.expiresAt) := by
  unfold ReadsBack
  rcases hw.inv.resident_append hev with ⟨old, hold, hhash, hsame, hres⟩ | ⟨hnone, hres⟩
  · obtain ⟨hnano, u, v', hu, hv', hser⟩ := (sameAtomContent_iff _ _).1 hsame
    obtain rfl : v = v' := by
      have hmint : (w.mint (.eConst v) path deadline).expr = .eConst v := rfl
      rw [hmint] at hv'
      exact Expr.eConst.inj hv'
    simp only [getCurrent_eq_some hres, hold, Option.some.injEq]
    constructor
    · rintro h old u' rfl hu' - - - hdl
      have hstart := h w.now le_rfl hdl
      rw [hu'] at hstart
      refine ⟨Expr.eConst.inj hstart.2, ?_⟩
      by_cases hd : deadline = zeroTime
      · -- no deadline: the resident one must have none either, or it runs out
        have hlater := (h (max w.now (old.expiresAt + 1)) (le_max_left _ _) (Or.inl hd)).1
        refine Or.inl (hlater.resolve_right fun hle => ?_)
        exact absurd ((le_max_right _ _).trans hle) (not_le.2 (Int.lt_succ _))
      · have hlater := (h deadline (hdl.resolve_left hd) (Or.inr le_rfl)).1
        exact hlater.imp_right fun hle => ⟨hd, hle⟩
    · intro h t ht hdl
      have hdl' : deadline = zeroTime ∨ w.now ≤ deadline := hdl.imp_right ht.trans
      obtain ⟨rfl, hexp⟩ := h old u rfl hu hser hnano hhash hdl'
      refine ⟨hexp.imp_right fun hd => ?_, hu⟩
      exact (hdl.resolve_left hd.1).trans hd.2
  · simp only [getCurrent_eq_some hres]
    constructor
    · rintro - old u hold hu hser hnano hhash -
      exact absurd ⟨hhash, (sameAtomContent_iff _ _).2 ⟨hnano, u, v, hu, rfl, hser⟩⟩
        (hnone old hold)
    · intro _ t _ hdl
      exact ⟨hdl, rfl⟩

section Instances

local instance plainHashing : Hashing Str := ⟨id, id, fun _ => 0⟩

/-- The world after `DEL k` on a new cache: the tombstone is a null constant. -/
def afterDel : World Unit Str := ((World.init 0 0).append (.eConst .vNull) (str "k") zeroTime).2

theorem afterDel_reachable : afterDel.Reachable :=
  (World.reachable_init 0 0).append _ _ _

/-- The bytes of the string `"\x00"` are those of the tombstone. -/
theorem del_then_set_not_readsBack : afterDel.Reachable ∧
    ¬ afterDel.Evicts (.eConst (.vString [0])) (str "k") zeroTime ∧
    ¬ afterDel.ReadsBack (.vString [0]) (str "k") zeroTime := by
  refine ⟨afterDel_reachable, World.not_evicts_of_not_overCeiling (by decide), fun h => ?_⟩
  obtain ⟨a, ha, hexpr⟩ := h 0 le_rfl (Or.inl rfl)
  have hkept : ((afterDel.append (.eConst (.vString [0])) (str "k") zeroTime).2.cache.getCurrent 0
      (str "k")).1.map (·.expr) = some (.eConst .vNull) := by rfl
  rw [ha, Option.map_some, hexpr] at hkept
  exact absurd (Expr.eConst.inj (Option.some.inj hkept)) (by simp)

theorem readsBack_iff_del_then_set : afterDel.Reachable ∧
    ¬ afterDel.Evicts (.eConst (.vString (str "v"))) (str "k") zeroTime ∧
    (afterDel.ReadsBack (.vString (str "v")) (str "k") zeroTime ↔
      ∀ old u, afterDel.cache.resident (str "k") = some old → old.expr = .eConst u →
        u.serialize = (Value.vString (str "v") : Value Unit).serialize →
        unixNano old.expiresAt = unixNano zeroTime →
        old.hash ≠ (afterDel.mint (.eConst (.vString (str "v"))) (str "k") zeroTime).hash →
        zeroTime = zeroTime ∨ afterDel.now ≤ zeroTime → u = .vString (str "v") ∧
            (old.expiresAt = zeroTime ∨ zeroTime ≠ zeroTime ∧ zeroTime ≤ old.expiresAt)) :=
  ⟨afterDel_reachable, World.not_evicts_of_not_overCeiling (by decide),
    World.readsBack_iff afterDel_reachable (World.not_evicts_of_not_overCeiling (by decide))⟩

end Instances

end Wavicle.Storage
