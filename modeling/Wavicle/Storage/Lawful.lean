import Wavicle.Storage.ShardedRuns
import Wavicle.Core.Intern

/-! # What the engine relies on

A `LawfulStore` answers reads from its view, every current atom was minted and knows its path, an append makes
no atom current but its own, and whatever else happens makes none current. -/

namespace Wavicle.Storage

open Lib Wavicle.Core ShardedFrontierCache

/-- Nothing current is new. -/
def View.Fades {ι H : Type} (V V' : View ι H) : Prop :=
  ∀ q a, V'.current q = some a → V.current q = some a

/-- At most the path `p` has a new current atom, for the expression `e`. -/
def View.Appends {ι H : Type} (V V' : View ι H) (e : Expr ι H) (p : Str) : Prop :=
  ∀ q a, V'.current q = some a → V.current q = some a ∨ q = p ∧ Alike e a.expr

/-- A store with states in `σ`. -/
structure LawfulStore (σ ι H : Type) [DecidableEq H] where
  call : σ → (c : StoreCall ι H) → c.op.Res × σ
  /-- what happens besides the calls of a session: time, sweeps, readers -/
  Idle : σ → σ → Prop
  view : σ → View ι H
  log : σ → List (CausalAtom ι H)
  Good : σ → Prop
  shows : Shows call Good view
  log_read : ∀ s c, Good s → c.IsRead → log (call s c).2 = log s
  pathsAgree : ∀ s, Good s → ((log s).map (·.hash)).Nodup → (view s).PathsAgree
  logged : ∀ s, Good s → ∀ p a, (view s).current p = some a → a ∈ log s
  append : ∀ s, Good s → ∀ via e p ps t, Good (call s ⟨via, .appendAtom e p ps t⟩).2 ∧
    log s <:+ log (call s ⟨via, .appendAtom e p ps t⟩).2 ∧
    (((log (call s ⟨via, .appendAtom e p ps t⟩).2).map (·.hash)).Nodup →
      (view s).Appends (view (call s ⟨via, .appendAtom e p ps t⟩).2) e p)
  fresh : ∀ s, Good s → ∀ via e p ps t,
    ((log (call s ⟨via, .appendAtom e p ps t⟩).2).map (·.hash)).Nodup →
      ∀ q a, (view (call s ⟨via, .appendAtom e p ps t⟩).2).current q = some a →
        (view s).current q = some a ∨ a ∉ log s
  idle : ∀ s s', Good s → Idle s s' → Good s' ∧ log s <:+ log s' ∧ (view s).Fades (view s')

namespace World

variable {ι H : Type} [DecidableEq H] [Hashing H]

/-- A step that appends nothing. -/
inductive Idle (w : World ι H) : World ι H → Prop where
  | read (c : StoreCall ι H) (h : c.IsRead) : Idle w (w.call c).2
  | tick (t : Time) (h : w.now ≤ t) : Idle w { w with now := t }
  | sweep : Idle w { w with cache := w.cache.sweepExpired w.now }

variable {w : World ι H} {p : Str} {a : CausalAtom ι H}

theorem Idle.step {w' : World ι H} (h : Idle w w') : Step w w' := by
  cases h with
  | read c _ => exact .call c
  | tick t h => exact .tick t h
  | sweep => exact .sweep

theorem current_of_shrinks {f f' : ShardedFrontierCache ι H} (h : f.Shrinks f') {now : Time}
    (ha : f'.current now p = some a) : f.current now p = some a := by
  rw [current_eq_some] at ha ⊢
  rcases h.resident p with heq | hnone
  · exact ⟨heq ▸ ha.1, ha.2⟩
  · rw [hnone] at ha
    cases ha.1

theorem resident_inserted {e : Expr ι H} {q : Str} {t : Time}
    (h : (w.append e p t).2.cache.resident q = some a) :
    (w.cache.inserted w.now e p t).resident q = some a := by
  rcases (shrinks_appendAtom w.cache w.now e p t).resident q with heq | hnone
  · exact heq ▸ h
  · rw [show (w.append e p t).2.cache.resident q = none from hnone] at h
    cases h

theorem resident_of_append {e : Expr ι H} {q : Str} {t : Time}
    (h : (w.append e p t).2.cache.resident q = some a) :
    w.cache.resident q = some a ∨ q = p ∧ a = w.mint e p t := by
  have hins := resident_inserted h
  rcases insertAtom_spec { w.cache with clock := w.cache.clock + 1 }
    (w.mint e p t) with ⟨-, hput, -⟩ | ⟨-, hsame, -⟩
  · have hres := congrFun hput.resident q
    rw [Function.update_apply] at hres
    change (w.cache.inserted w.now e p t).resident q = _ at hres
    rw [hins] at hres
    split_ifs at hres with hq
    · exact Or.inr ⟨hq, Option.some.inj hres⟩
    · exact Or.inl hres.symm
  · exact Or.inl ((congrFun hsame.resident q).symm.trans hins)

theorem current_append {expr : Expr ι H} {path : Str} {expiresAt : Time}
    (ha : (w.append expr path expiresAt).2.current p = some a) :
    w.current p = some a ∨ p = path ∧ a = w.mint expr path expiresAt := by
  obtain ⟨hres, hlive⟩ := current_eq_some.1 ha
  refine (resident_of_append hres).imp_left fun hold => ?_
  exact current_eq_some.2 ⟨hold, hlive⟩

omit [DecidableEq H] in
theorem current_tick {t : Time} (h : w.now ≤ t)
    (ha : ({ w with now := t } : World ι H).current p = some a) : w.current p = some a := by
  obtain ⟨hres, hlive⟩ := current_eq_some.1 ha
  refine current_eq_some.2 ⟨hres, ?_⟩
  simp only [CausalAtom.expired, decide_eq_false_iff_not, not_and, not_lt] at hlive ⊢
  exact fun hne => h.trans (hlive hne)

theorem Inv.pathsAgree (hw : w.Inv) : w.view.PathsAgree := by
  intro p a ha
  exact (hw.exact.owner _ _ _ (current_eq_some.1 ha).1).2

theorem Inv.logged (hw : w.Inv) (ha : w.view.current p = some a) : a ∈ w.log :=
  hw.exact.logged _ _ _ (current_eq_some.1 ha).1

theorem log_call_of_isRead (w : World ι H) : ∀ c : StoreCall ι H, c.IsRead → (w.call c).2.log = w.log
  | ⟨_, .getCurrent _⟩, _ => rfl
  | ⟨_, .getAtom _⟩, _ => rfl
  | ⟨_, .verifyVersionVector _⟩, _ => rfl
  | ⟨_, .getCurrentHash _⟩, _ => rfl
  | ⟨_, .findChangedPaths _⟩, _ => rfl

/-- The sharded cache, in the worlds with the invariant of all runs. -/
def lawful (ι H : Type) [DecidableEq H] [Hashing H] : LawfulStore (World ι H) ι H where
  call := World.call
  Idle := Idle
  view := World.view
  log := World.log
  Good := World.Inv
  shows :=
    { answer := fun w c _ hc => shows_view.answer w c trivial hc
      frame := fun w c _ hc => shows_view.frame w c trivial hc
      keeps := fun _ c hw _ => hw.call c }
  log_read w c _ hc := w.log_call_of_isRead c hc
  pathsAgree _ hw _ := hw.pathsAgree
  logged _ hw _ _ ha := hw.logged ha
  append w hw via e p ps t := by
    refine ⟨hw.append e p t, List.suffix_cons _ _, fun _ q a ha => ?_⟩
    refine (current_append ha).imp_right fun h => ⟨h.1, ?_⟩
    rw [h.2]
    exact Alike.refl e
  fresh w hw via e p ps t hnd q a ha := by
    refine (current_append ha).imp_right fun h hmem => (List.nodup_cons.1 hnd).1 ?_
    rw [← h.2]
    exact List.mem_map_of_mem hmem
  idle w w' hw h := by
    refine ⟨hw.step h.step, ?_, ?_⟩
    · cases h with
      | read c hc =>
        exact (w.log_call_of_isRead c hc).symm ▸ List.suffix_rfl
      | tick t h => exact List.suffix_rfl
      | sweep => exact List.suffix_rfl
    · cases h with
      | read c hc =>
        rw [shows_view.frame w c trivial hc]
        exact fun _ _ h => h
      | tick t h => exact fun q a ha => current_tick h ha
      | sweep => exact fun q a ha =>
          current_of_shrinks (shrinks_sweepExpired ..) ha

end World

end Wavicle.Storage
