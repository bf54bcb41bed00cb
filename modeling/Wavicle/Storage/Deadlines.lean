import Wavicle.Storage.Agreement

/-! # Deadlines in write-through mode

A `WriteThroughStore` keeps the deadline of a write in its cache only.

* `fillText`: the text that `GetCurrent` takes from the database into the cache, without a deadline.
* `Refills`: the fill is made and kept; this is decided by the state before it.
* `TierEvent`, `play`: what can happen to the store, and a run.
* `deadline_respected_iff`: the reads of a run respect the deadline of the last write exactly if none refills. -/

namespace Wavicle.Storage

open Lib Wavicle.Core ShardedFrontierCache Prog

section

variable {ι H : Type} [DecidableEq H] [Hashing H] {w : World ι H} {e : Expr ι H} {p q : Str}
  {t : Time} {a : CausalAtom ι H}

/-! ### Appends to the cache -/

theorem insertAtom_hash (f : ShardedFrontierCache ι H) (atom : CausalAtom ι H) :
    (f.insertAtom atom).2.2 = true ∧ (f.insertAtom atom).1 = atom.hash ∨ (f.insertAtom atom).2.2 = false ∧
        ∃ old, f.resident atom.path = some old ∧ (f.insertAtom atom).1 = old.hash := by
  unfold insertAtom
  split
  · exact Or.inl ⟨rfl, rfl⟩
  · rename_i old hold
    split
    · exact Or.inr ⟨rfl, old, hold, rfl⟩
    · exact Or.inr ⟨rfl, old, hold, rfl⟩
    · exact Or.inl ⟨rfl, rfl⟩

/-- A new atom has a later clock than all that is there. -/
theorem World.Inv.mint_not_resident (hw : w.Inv) : w.cache.resident p ≠ some (w.mint e p t) := by
  intro hres
  have hclock := hw.clock _ (hw.exact.logged _ _ _ hres)
  change w.cache.clock + 1 ≤ w.cache.clock at hclock
  omega

theorem World.append_fst (w : World ι H) (e : Expr ι H) (p : Str) (t : Time) :
    (w.append e p t).1 = ({ w.cache with clock := w.cache.clock + 1 }.insertAtom (w.mint e p t)).1 := by
  unfold World.append ShardedFrontierCache.appendAtom
  dsimp only
  split <;> rename_i heq <;> exact (congrArg Prod.fst heq).symm

theorem World.Inv.resident_append_kept (hw : w.Inv) (h : (w.append e p t).2.cache.resident p = some a) :
    a = w.mint e p t ∨ w.cache.resident p = some a ∧ unixNano a.expiresAt = unixNano t := by
  have hins := World.resident_inserted h
  rcases insertAtom_spec { w.cache with clock := w.cache.clock + 1 }
    (w.mint e p t) with ⟨-, hput, -⟩ | ⟨-, hsame, old, hold, hkeep⟩
  · have hres := congrFun hput.resident p
    rw [show (w.mint e p t).path = p from rfl, Function.update_self] at hres
    change (w.cache.inserted w.now e p t).resident p = _ at hres
    rw [hins] at hres
    exact Or.inl (Option.some.inj hres)
  · have hold' : w.cache.resident p = some old := hold
    obtain rfl := Option.some.inj (hold'.symm.trans ((congrFun hsame.resident p).symm.trans hins))
    obtain ⟨-, hcontent⟩ := (hw.keeps_ne_none_iff hold' e t).1 hkeep
    exact Or.inr ⟨hold', ((sameAtomContent_iff _ _).1 hcontent).1⟩

/-- **What an append does to its path**: the new atom is resident and found under the hash that is
returned, or nothing new is resident and only what was there before is found. -/
theorem World.Inv.append_cases (hw : w.Inv) (hd : ((w.append e p t).2.log.map (·.hash)).Nodup) :
    (w.append e p t).2.cache.resident p = some (w.mint e p t) ∧ (w.append e p t).1 = (w.mint e p t).hash ∨
      (∀ a, (w.append e p t).2.cache.resident p = some a → w.cache.resident p = some a) ∧
        ∀ b, (w.append e p t).2.view.atom (w.append e p t).1 = some b → w.cache.resident p = some b := by
  have hw' := hw.append e p t
  have hmint : w.mint e p t ∈ (w.append e p t).2.log := List.mem_cons_self
  have hspec := insertAtom_spec { w.cache with clock := w.cache.clock + 1 }
    (w.mint e p t)
  rw [World.append_fst]
  rcases insertAtom_hash { w.cache with clock := w.cache.clock + 1 } (w.mint e p t) with
    ⟨hflag, hhash⟩ | ⟨hflag, old, hold, hhash⟩
  · -- the atom goes in, and may be evicted at once
    by_cases hres : (w.append e p t).2.cache.resident p = some (w.mint e p t)
    · exact Or.inl ⟨hres, hhash⟩
    · refine Or.inr ⟨fun a ha => ?_, fun b hb => ?_⟩
      · rcases World.resident_of_append ha with h | ⟨-, rfl⟩
        · exact h
        · exact absurd ha hres
      · rw [hhash, hw'.atom_eq_some hd] at hb
        have hlog := hw'.logged hb.1
        obtain rfl := eq_of_hash_eq hd hlog hmint hb.2
        exact absurd (current_eq_some.1 hb.1).1 hres
  · have hold' : w.cache.resident p = some old := hold
    refine Or.inr ⟨fun a ha => ?_, fun b hb => ?_⟩
    · rcases hspec with ⟨hbad, -⟩ | ⟨-, hsame, -⟩
      · rw [hflag] at hbad
        cases hbad
      · exact (congrFun hsame.resident p).symm.trans (World.resident_inserted ha)
    · rw [hhash, hw'.atom_eq_some hd] at hb
      have hlogged : old ∈ (w.append e p t).2.log :=
        List.mem_cons_of_mem _ (hw.exact.logged _ _ _ hold')
      rw [eq_of_hash_eq hd (hw'.logged hb.1) hlogged hb.2]
      exact hold'

end

section

variable {δ ι H : Type} [DecidableEq H] [Hashing H] [Printing] [RuneClasses]

namespace WriteThrough

/-! ### What a read appends -/

variable (S : Sql δ ι)

/-- The text that `GetCurrent(p)` appends to the cache, if it does: what the database has, where the
cache has no live atom or an old one with another text. -/
def fillText (w : WriteThrough δ ι H) (p : Str) : Option Str :=
  match w.cache.current p with
  | none => w.primaryText S p
  | some a =>
    if aged w.cache.now a then (w.primaryText S p).filter (extractAtomValue a ≠ some ·) else none

def looked (w : WriteThrough δ ι H) (p : Str) : World ι H :=
  (w.cache.call ⟨.inner, .getCurrent p⟩).2

def filled (w : WriteThrough δ ι H) (p text : Str) : H × World ι H :=
  (w.looked p).append (.eConst (.vString text)) p zeroTime

variable {S} {w : WriteThrough δ ι H} {p : Str}

omit [Printing] [RuneClasses] in
theorem current_looked (w : WriteThrough δ ι H) (p : Str) :
    (w.cache.call ⟨.inner, .getCurrent p⟩).1 = w.cache.current p :=
  getCurrent_fst ..

omit [Printing] [RuneClasses] in
theorem resident_looked (w : WriteThrough δ ι H) (p : Str) :
    (w.looked p).cache.resident = w.cache.cache.resident :=
  (w.cache.cache.same_getCurrent w.cache.now p).resident

omit [Printing] in
theorem step_getCurrent (S : Sql δ ι) (w : WriteThrough δ ι H) (p : Str) :
    step S w (.getCurrent p) = (w.cache.current p, { w with cache := w.looked p }) :=
  Prod.ext (current_looked w p) rfl

omit [Printing] in
theorem run_seed (S : Sql δ ι) (w : WriteThrough δ ι H) (p text : Str) :
    (seed p text).run (step S) { w with cache := w.looked p } =
      ((w.filled p text).2.view.atom (w.filled p text).1,
        { w with cache := (w.filled p text).2 }) := rfl

theorem run_getCurrent_of_none (h : w.fillText S p = none) :
    (getCurrent p).run (step S) w = (w.cache.current p, { w with cache := w.looked p }) := by
  unfold getCurrent TierOp.ask
  rw [run_bind, run_ask, step_getCurrent]
  cases hcur : w.cache.current p with
  | none =>
    simp only [fillText, hcur] at h
    have hselect : step S { w with cache := w.looked p } (.select p) =
        (none, { w with cache := w.looked p }) := Prod.ext h rfl
    simp only [run_bind, run_ask, hselect, run_pure]
  | some a =>
    simp only [fillText, hcur] at h
    have hclock : step S { w with cache := w.looked p } .clock =
        (w.cache.now, { w with cache := w.looked p }) := rfl
    simp only [run_bind, run_ask, hclock]
    split_ifs at h ⊢ with haged
    · have hselect : step S { w with cache := w.looked p } (.select p) =
          (w.primaryText S p, { w with cache := w.looked p }) := rfl
      simp only [run_bind, run_ask, hselect]
      cases htext : w.primaryText S p with
      | none => rfl
      | some text =>
        rw [htext, Option.filter_some] at h
        split_ifs at h with hne
        rw [decide_eq_true_eq, not_not] at hne
        simp only [hne, ne_eq, not_true_eq_false, if_false, run_pure]
    · rfl

theorem run_getCurrent_of_some {text : Str} (h : w.fillText S p = some text) :
    (getCurrent p).run (step S) w =
      (((w.filled p text).2.view.atom (w.filled p text).1).or (w.cache.current p),
        { w with cache := (w.filled p text).2 }) := by
  unfold getCurrent TierOp.ask
  rw [run_bind, run_ask, step_getCurrent]
  have hselect : step S { w with cache := w.looked p } (.select p) =
      (w.primaryText S p, { w with cache := w.looked p }) := rfl
  cases hcur : w.cache.current p with
  | none =>
    simp only [fillText, hcur] at h
    simp only [run_bind, run_ask, hselect, h, run_seed, Option.or_none]
  | some a =>
    simp only [fillText, hcur] at h
    have hclock : step S { w with cache := w.looked p } .clock =
        (w.cache.now, { w with cache := w.looked p }) := rfl
    simp only [run_bind, run_ask, hclock]
    split_ifs at h ⊢ with haged
    obtain ⟨htext, hne⟩ := Option.filter_eq_some_iff.1 h
    simp only [run_bind, run_ask, hselect, htext]
    rw [decide_eq_true_eq] at hne
    rw [if_pos hne]
    simp only [run_bind, run_seed, run_pure]
    cases (w.filled p text).2.view.atom (w.filled p text).1 <;> rfl

/-! ### One read -/

/-- `GetCurrent(p)` puts what the database has in the place of what was written: there is a text to fill in, and the
cache neither drops it for a resident atom with the same content nor evicts it at once. -/
def Refills (S : Sql δ ι) (w : WriteThrough δ ι H) (p : Str) : Prop :=
  ∃ text, w.fillText S p = some text ∧ (w.looked p).repeats (.eConst (.vString text)) p zeroTime = false ∧
    (w.looked p).retains (.eConst (.vString text)) p zeroTime = true

/-- An answer of `GetCurrent` at the instant `now` respects the deadline `d`: after `d` there is none,
and an earlier one has this deadline. -/
def Respects (d now : Time) (answer : Option (CausalAtom ι H)) : Prop :=
  (d < now → answer = none) ∧ (now ≤ d → ∀ a, answer = some a → a.expiresAt = d)

/-- The atom that the cache has for `p`, live or not, has the deadline `d`. -/
def Carries (d : Time) (p : Str) (w : WriteThrough δ ι H) : Prop :=
  ∀ a, w.cache.cache.resident p = some a → a.expiresAt = d

omit [DecidableEq H] [Hashing H] [Printing] [RuneClasses] in
theorem respects_of_live {d now : Time} (hd : d ≠ zeroTime) {answer : Option (CausalAtom ι H)}
    (h : ∀ a, answer = some a → a.expiresAt = d ∧ a.expired now = false) : Respects d now answer := by
  refine ⟨fun hlate => ?_, fun _ a ha => (h a ha).1⟩
  cases hanswer : answer with
  | none => rfl
  | some a =>
    obtain ⟨rfl, hlive⟩ := h a hanswer
    rw [World.expired_eq_false_iff] at hlive
    exact absurd hlate (not_lt.2 (hlive.resolve_left hd))

omit [Printing] [RuneClasses] in
theorem filled_cases (hw : w.cache.Inv) {text : Str}
    (hdist : ((w.filled p text).2.log.map (·.hash)).Nodup) : (w.filled p text).2.cache.resident p =
          some ((w.looked p).mint (.eConst (.vString text)) p zeroTime) ∧
        (w.filled p text).1 = ((w.looked p).mint (.eConst (.vString text)) p zeroTime).hash ∨
      (w.filled p text).2.cache.resident p ≠ some ((w.looked p).mint (.eConst (.vString text)) p zeroTime) ∧
        ∀ b, (w.filled p text).2.view.atom (w.filled p text).1 = some b →
          w.cache.cache.resident p = some b ∧ b.expired w.cache.now = false := by
  have hlooked : (w.looked p).Inv := hw.call _
  have hfilled : (w.filled p text).2.Inv := hlooked.append _ _ _
  rcases hlooked.append_cases hdist with htaken | ⟨hold, hfound⟩
  · exact Or.inl htaken
  · refine Or.inr ⟨fun hres => ?_, fun b hb => ⟨?_, ?_⟩⟩
    · exact hlooked.mint_not_resident (hold _ hres)
    · exact resident_looked w p ▸ hfound b hb
    · exact (current_eq_some.1 ((hfilled.atom_eq_some hdist).1 hb).1).2

omit [Printing] [RuneClasses] in
/-- The fill is resident exactly if it is neither dropped nor evicted. -/
theorem resident_filled_iff (hw : w.cache.Sound) {text : Str} : (w.filled p text).2.cache.resident p =
      some ((w.looked p).mint (.eConst (.vString text)) p zeroTime) ↔
    (w.looked p).repeats (.eConst (.vString text)) p zeroTime = false ∧
      (w.looked p).retains (.eConst (.vString text)) p zeroTime = true := by
  have hlooked : (w.looked p).Sound := hw.act (.call ⟨.inner, .getCurrent p⟩)
  unfold filled
  rw [hlooked.inv.resident_append_eq hlooked.limited.balanced]
  cases (w.looked p).repeats (.eConst (.vString text)) p zeroTime with
  | false =>
    cases (w.looked p).retains (.eConst (.vString text)) p zeroTime with
    | false => simp
    | true => simp
  | true =>
    refine iff_of_false (fun hres => ?_) fun h => Bool.noConfusion h.1
    rw [if_pos rfl] at hres
    exact hlooked.inv.mint_not_resident hres

/-- **One read respects the deadline exactly if it does not refill.** -/
theorem respects_iff (hw : w.cache.Sound) {d : Time} (hd : d ≠ zeroTime) (hcar : w.Carries d p)
    (hdist : (((getCurrent p).run (step S) w).2.cache.log.map (·.hash)).Nodup) :
    Respects d w.cache.now ((getCurrent p).run (step S) w).1 ↔ ¬ w.Refills S p := by
  have hcurrent : ∀ a, w.cache.current p = some a →
      a.expiresAt = d ∧ a.expired w.cache.now = false := fun a ha => by
    obtain ⟨hres, hlive⟩ := current_eq_some.1 ha
    exact ⟨hcar a hres, hlive⟩
  cases hfill : w.fillText S p with
  | none =>
    rw [run_getCurrent_of_none hfill]
    refine iff_of_true (respects_of_live hd hcurrent) ?_
    rintro ⟨text, htext, -⟩
    rw [hfill] at htext
    cases htext
  | some text =>
    rw [run_getCurrent_of_some hfill] at hdist ⊢
    rcases filled_cases hw.inv hdist with ⟨hres, hhash⟩ | ⟨hres, hfound⟩
    · -- the fill is found, and it has no deadline
      have hatom : (w.filled p text).2.view.atom (w.filled p text).1 =
          some ((w.looked p).mint (.eConst (.vString text)) p zeroTime) := by
        rw [hhash]
        refine (((hw.inv.call _).append _ _ _).atom_eq_some hdist).2 ⟨?_, rfl⟩
        refine current_eq_some.2 ⟨hres, ?_⟩
        exact (World.expired_eq_false_iff _ _).2 (Or.inl rfl)
      rw [hatom, Option.some_or]
      refine iff_of_false (fun hresp => ?_) (not_not_intro ⟨text, hfill, (resident_filled_iff hw).1 hres⟩)
      rcases lt_or_ge d w.cache.now with hlate | hearly
      · cases hresp.1 hlate
      · exact hd (hresp.2 hearly _ rfl).symm
    · refine iff_of_true (respects_of_live hd fun a ha => ?_) ?_
      · rcases Option.or_eq_some_iff.1 ha with hb | ⟨-, hb⟩
        · obtain ⟨hold, hlive⟩ := hfound a hb
          exact ⟨hcar a hold, hlive⟩
        · exact hcurrent a hb
      · rintro ⟨text', htext', hres'⟩
        rw [hfill] at htext'
        obtain rfl := Option.some.inj htext'
        exact hres ((resident_filled_iff hw).2 hres')

/-! ### Runs -/

/-- What can happen to the store: a call of a method, the passing of time, a sweep of the cache, and a
change of the database by others. -/
inductive TierEvent (δ ι H : Type) where
  | call (op : StoreOp ι H)
  | wait (nanoseconds : ℕ)
  | sweep
  | external (db : δ)

def next (S : Sql δ ι) (w : WriteThrough δ ι H) : TierEvent δ ι H → WriteThrough δ ι H
  | .call op => (w.call S ⟨.given, op⟩).2
  | .wait nanoseconds =>
    { w with cache := { w.cache with now := w.cache.now + nanoseconds } }
  | .sweep => { w with cache := { w.cache with cache := w.cache.cache.sweepExpired w.cache.now } }
  | .external db => { w with db := db }

def play (S : Sql δ ι) (w : WriteThrough δ ι H) (events : List (TierEvent δ ι H)) :
    WriteThrough δ ι H := events.foldl (next S) w

def TierEvent.writes (p : Str) : TierEvent δ ι H → Bool
  | .call (.appendAtom _ q _ _) => q = p
  | _ => false

def TierEvent.reads (p : Str) : TierEvent δ ι H → Bool
  | .call (.getCurrent q) => q = p
  | _ => false

def readStates (S : Sql δ ι) (p : Str) :
    WriteThrough δ ι H → List (TierEvent δ ι H) → List (WriteThrough δ ι H)
  | _, [] => []
  | w, e :: events =>
    (if e.reads p then [w] else []) ++ readStates S p (next S w e) events

omit [DecidableEq H] [Hashing H] [Printing] [RuneClasses] in
theorem TierEvent.reads_iff {e : TierEvent δ ι H} : e.reads p = true ↔ e = .call (.getCurrent p) := by
  cases e with
  | call op =>
    cases op with
    | getCurrent q => simp [reads]
    | _ => simp [reads]
  | _ => simp [reads]

omit [Printing] in
theorem run_appendAtom_cases (S : Sql δ ι) (w : WriteThrough δ ι H) (e : Expr ι H) (p : Str) (t : Time) :
    (∃ db, (appendAtom e p t).run (step S) w =
        (.ok (w.cache.append e p t).1, ⟨(w.cache.append e p t).2, db⟩)) ∨
      ∃ msg, (appendAtom e p t).run (step S) w = (.error msg, w) := by
  unfold appendAtom TierOp.ask
  rw [run_bind, run_ask]
  cases hdb : PostgresStore.appendAtom S w.db e p with
  | ok db =>
    have hstep : step S w (.upsert e p) = (none, { w with db := db }) := by simp only [step, hdb]
    rw [hstep]
    exact Or.inl ⟨db, rfl⟩
  | error msg =>
    have hstep : step S w (.upsert e p) = (some msg, w) := by simp only [step, hdb]
    rw [hstep]
    dsimp only
    split_ifs
    · exact Or.inl ⟨w.db, rfl⟩
    · exact Or.inr ⟨msg, rfl⟩

/-- **What an event does to the cache**: an append, a fill, or nothing that makes an atom resident. -/
theorem cache_next (S : Sql δ ι) (w : WriteThrough δ ι H) (e : TierEvent δ ι H) :
    (∃ expr q parents t, e = .call (.appendAtom expr q parents t) ∧
        (next S w e).cache = (w.cache.append expr q t).2) ∨
      (∃ q text, e = .call (.getCurrent q) ∧ w.fillText S q = some text ∧
        (next S w e).cache = (w.filled q text).2) ∨
      w.cache.Idle (next S w e).cache ∨ (next S w e).cache = w.cache := by
  cases e with
  | wait nanoseconds =>
    exact Or.inr (Or.inr (Or.inl (.tick _ (Int.le_add_of_nonneg_right (Int.natCast_nonneg _)))))
  | sweep => exact Or.inr (Or.inr (Or.inl .sweep))
  | external db => exact Or.inr (Or.inr (Or.inr rfl))
  | call op =>
    cases op with
    | appendAtom expr q parents t =>
      change (∃ _ _ _ _, _ ∧ ((appendAtom expr q t).run (step S) w).2.cache = _) ∨ _
      rcases run_appendAtom_cases S w expr q t with ⟨db, hrun⟩ | ⟨msg, hrun⟩
      · exact Or.inl ⟨expr, q, parents, t, rfl, by rw [hrun]⟩
      · refine Or.inr (Or.inr (Or.inr ?_))
        change ((appendAtom expr q t).run (step S) w).2.cache = w.cache
        rw [hrun]
    | getCurrent q =>
      refine Or.inr ?_
      change (∃ _ _, _ ∧ _ ∧ ((getCurrent q).run (step S) w).2.cache = _) ∨
        w.cache.Idle ((getCurrent q).run (step S) w).2.cache ∨ _
      cases hfill : w.fillText S q with
      | none =>
        rw [run_getCurrent_of_none hfill]
        exact Or.inr (Or.inl (.read ⟨.inner, .getCurrent q⟩ trivial))
      | some text => exact Or.inl ⟨q, text, rfl, hfill, by rw [run_getCurrent_of_some hfill]⟩
    | _ => exact Or.inr (Or.inr (Or.inr rfl))

theorem sound_next (hw : w.cache.Sound) (e : TierEvent δ ι H) : (next S w e).cache.Sound := by
  rcases cache_next S w e with ⟨expr, q, parents, t, -, h⟩ | ⟨q, text, -, -, h⟩ | hidle | h
  · rw [h]
    exact hw.append _ _ _
  · rw [h]
    exact World.Sound.append (hw.act (.call ⟨.inner, .getCurrent q⟩)) _ _ _
  · exact hw.idle hidle
  · rwa [h]

theorem log_next (S : Sql δ ι) (hw : w.cache.Sound) (e : TierEvent δ ι H) :
    w.cache.log <:+ (next S w e).cache.log := by
  rcases cache_next S w e with ⟨expr, q, parents, t, -, h⟩ | ⟨q, text, -, -, h⟩ | hidle | h
  · rw [h]
    exact List.suffix_cons _ _
  · rw [h]
    exact List.suffix_cons _ _
  · exact ((World.lawful ι H).idle _ _ hw.inv hidle).2.1
  · rw [h]

theorem sound_play (hw : w.cache.Sound) : ∀ events : List (TierEvent δ ι H), (play S w events).cache.Sound := by
  intro events
  induction events generalizing w with
  | nil => exact hw
  | cons e events ih => exact ih (sound_next hw e)

theorem log_play (S : Sql δ ι) (hw : w.cache.Sound) (events : List (TierEvent δ ι H)) :
    w.cache.log <:+ (play S w events).cache.log := by
  induction events generalizing w with
  | nil => exact List.suffix_rfl
  | cons e events ih => exact (log_next S hw e).trans (ih (sound_next hw e))

omit [Printing] [RuneClasses] in
theorem resident_of_idle {c c' : World ι H} (h : c.Idle c') {a : CausalAtom ι H}
    (ha : c'.cache.resident p = some a) : c.cache.resident p = some a := by
  cases h with
  | tick => exact ha
  | sweep =>
    rcases (c.cache.shrinks_sweepExpired c.now).resident p with heq | hnone
    · exact heq ▸ ha
    · rw [show (c.cache.sweepExpired c.now).resident p = none from hnone] at ha
      cases ha
  | read call hcall =>
    obtain ⟨via, op⟩ := call
    cases op with
    | appendAtom => exact hcall.elim
    | frontierPaths => exact hcall.elim
    | getCurrent q => exact (congrFun (c.cache.same_getCurrent c.now q).resident p) ▸ ha
    | _ => exact ha

/-- **A step** keeps the deadline, unless it is a write or a refill. -/
theorem Carries.next (hw : w.cache.Sound) {d : Time} (h : w.Carries d p) {e : TierEvent δ ι H}
    (hwrite : e.writes p = false) (hread : e.reads p = true → ¬ w.Refills S p) :
    (WriteThrough.next S w e).Carries d p := by
  intro a ha
  rcases cache_next S w e with ⟨expr, q, parents, t, rfl, hc⟩ | ⟨q, text, rfl, hfill, hc⟩ | hidle | hc
  · rw [hc] at ha
    rcases World.resident_of_append ha with hold | ⟨rfl, -⟩
    · exact h a hold
    · simp [TierEvent.writes] at hwrite
  · rw [hc] at ha
    rcases World.resident_of_append ha with hold | ⟨rfl, rfl⟩
    · exact h a (resident_looked w q ▸ hold)
    · exact absurd ⟨text, hfill, (resident_filled_iff hw).1 ha⟩ (hread (by simp [TierEvent.reads]))
  · exact h a (resident_of_idle hidle ha)
  · exact h a (hc ▸ ha)

/-- **A run** without writes to `p`: its reads of `p` respect the deadline exactly if none of them
refills. -/
theorem respects_run_iff {d : Time} (hd : d ≠ zeroTime) : ∀ {w : WriteThrough δ ι H}
    {events : List (TierEvent δ ι H)}, w.cache.Sound → w.Carries d p →
    (∀ e ∈ events, e.writes p = false) → ((play S w events).cache.log.map (·.hash)).Nodup →
    ((∀ x ∈ readStates S p w events, Respects d x.cache.now (x.call S ⟨.given, .getCurrent p⟩).1) ↔
      ∀ x ∈ readStates S p w events, ¬ x.Refills S p) := by
  intro w events
  induction events generalizing w with
  | nil => exact fun _ _ _ _ => by simp [readStates]
  | cons e events ih =>
    intro hw hcar hwrites hdist
    have hwrite := hwrites e (.head _)
    have hrest := fun hcar' => ih (sound_next (S := S) hw e) hcar'
      (List.forall_mem_cons.1 hwrites).2 hdist
    have hlog : ((next S w e).cache.log.map (·.hash)).Nodup :=
      hdist.sublist ((log_play S (sound_next hw e) events).sublist.map _)
    by_cases hread : e.reads p = true
    · rw [TierEvent.reads_iff] at hread
      subst hread
      have hone := respects_iff (S := S) hw hd hcar hlog
      rw [readStates, if_pos (TierEvent.reads_iff.2 rfl), List.singleton_append]
      simp only [List.forall_mem_cons]
      constructor
      · rintro ⟨hresp, hresps⟩
        have hnot := hone.1 hresp
        exact ⟨hnot, (hrest (hcar.next hw hwrite fun _ => hnot)).1 hresps⟩
      · rintro ⟨hnot, hnots⟩
        exact ⟨hone.2 hnot, (hrest (hcar.next hw hwrite fun _ => hnot)).2 hnots⟩
    · rw [readStates, if_neg hread, List.nil_append]
      exact hrest (hcar.next hw hwrite fun h => absurd h hread)

def new (maxBytes : ℤ) (now : Time) (db : δ) : WriteThrough δ ι H := ⟨.init maxBytes now, db⟩

/-- After any run of a new store, an `AppendAtom` on `p` with the deadline `d` succeeds, while the
cache has no atom for `p` with another deadline of the same `UnixNano`. Then, in every run without
another write to `p`: **every `GetCurrent(p)` respects the deadline exactly if none of them refills.** -/
theorem deadline_respected_iff {maxBytes : ℤ} {now : Time} {db : δ}
    {history : List (TierEvent δ ι H)} {expr : Expr ι H} {p : Str} {parents : List H} {d : Time}
    (hd : d ≠ zeroTime)
    (hnano : ∀ old, (play S (new maxBytes now db) history).cache.cache.resident p = some old →
      unixNano old.expiresAt = unixNano d → old.expiresAt = d)
    {hash : H} (hok : ((play S (new maxBytes now db) history).call S
      ⟨.given, .appendAtom expr p parents d⟩).1 = .ok hash)
    {events : List (TierEvent δ ι H)} (hwrites : ∀ e ∈ events, e.writes p = false)
    (hdist : ((play S (new maxBytes now db)
      (history ++ .call (.appendAtom expr p parents d) :: events)).cache.log.map (·.hash)).Nodup) :
    (∀ x ∈ readStates S p (play S (new maxBytes now db)
          (history ++ [.call (.appendAtom expr p parents d)])) events,
        Respects d x.cache.now (x.call S ⟨.given, .getCurrent p⟩).1) ↔
      ∀ x ∈ readStates S p (play S (new maxBytes now db)
          (history ++ [.call (.appendAtom expr p parents d)])) events, ¬ x.Refills S p := by
  have hsound := sound_play (S := S) (w := (new maxBytes now db : WriteThrough δ ι H))
    (World.sound_init maxBytes now)
  have hplay : play S (play S (new maxBytes now db)
      (history ++ [.call (.appendAtom expr p parents d)])) events =
      play S (new maxBytes now db) (history ++ .call (.appendAtom expr p parents d) :: events) := by
    rw [play, play, play, ← List.foldl_append, List.append_assoc, List.singleton_append]
  refine respects_run_iff hd (hsound _) ?_ hwrites (hplay ▸ hdist)
  -- the atom of the write is there, or an older one with the same deadline, or none
  intro a ha
  rw [play, List.foldl_append] at ha
  rcases run_appendAtom_cases S (play S (new maxBytes now db) history) expr p d with
    ⟨db', hrun⟩ | ⟨msg, hrun⟩
  · change ((appendAtom expr p d).run (step S) _).2.cache.cache.resident p = some a at ha
    rw [show history.foldl (WriteThrough.next S) (new maxBytes now db) =
      play S (new maxBytes now db) history from rfl, hrun] at ha
    rcases (hsound history).inv.resident_append_kept ha with rfl | ⟨hold, hnano'⟩
    · rfl
    · exact hnano a hold hnano'
  · change ((appendAtom expr p d).run (step S) _).1 = _ at hok
    rw [hrun] at hok
    cases hok

end WriteThrough

end

section Instances

local instance expiryHashing : Hashing Str := ⟨id, id, fun _ => 0⟩

local instance expiryPrinting : Printing := ⟨fun _ => []⟩

local instance expiryRunes : RuneClasses := ⟨fun _ => false⟩

open WriteThrough

def putUntilTen (p : Str) : TierEvent (Option (Value Unit)) Unit Str :=
  .call (.appendAtom (.eConst (.vString (str "v"))) p [] 10)

/-- The cell is written with a deadline at 10; at 11 it has expired, and `GetCurrent` returns it again,
without a deadline. -/
theorem expired_cell_comes_back :
    (play oneCell (new 0 0 none) [putUntilTen cellPath, .wait 11]).cache.now = 11 ∧
    (((play oneCell (new 0 0 none) [putUntilTen cellPath, .wait 11]).call oneCell
      ⟨.given, .getCurrent cellPath⟩).1.map fun a => (a.expr, a.expiresAt)) =
        some (.eConst (.vString (str "v")), zeroTime) := by
  refine ⟨?_, ?_⟩ <;> decide +kernel

/-- A read, and a second one after the deadline, when others have emptied the cell. -/
def twoReads : List (TierEvent (Option (Value Unit)) Unit Str) :=
  [.call (.getCurrent cellPath), .external none, .wait 11, .call (.getCurrent cellPath)]

theorem deadline_respected_iff_twoReads :
    (readStates oneCell cellPath (play oneCell (new 0 0 none) [putUntilTen cellPath]) twoReads).length = 2 ∧
    ∀ x ∈ readStates oneCell cellPath (play oneCell (new 0 0 none) [putUntilTen cellPath]) twoReads,
      Respects 10 x.cache.now (x.call oneCell ⟨.given, .getCurrent cellPath⟩).1 := by
  have hnone : ∀ x ∈ readStates oneCell cellPath
      (play oneCell (new 0 0 none) [putUntilTen cellPath]) twoReads,
      x.fillText oneCell cellPath = none := by decide +kernel
  have hfree : ((play oneCell (new 0 0 none : WriteThrough _ Unit Str) []).cache.cache.resident
      cellPath).isNone = true := by decide +kernel
  have hnano : ∀ old, (play oneCell (new 0 0 none : WriteThrough _ Unit Str) []).cache.cache.resident
      cellPath = some old → unixNano old.expiresAt = unixNano 10 → old.expiresAt = 10 := by
    intro old hold
    rw [hold] at hfree
    cases hfree
  have htaken : ((play oneCell (new 0 0 none : WriteThrough _ Unit Str) []).call oneCell
      ⟨.given, .appendAtom (.eConst (.vString (str "v"))) cellPath [] 10⟩).1.toOption.isSome = true := by
    decide +kernel
  obtain ⟨hash, hok⟩ : ∃ hash, ((play oneCell (new 0 0 none : WriteThrough _ Unit Str) []).call oneCell
      ⟨.given, .appendAtom (.eConst (.vString (str "v"))) cellPath [] 10⟩).1 = .ok hash := by
    revert htaken
    generalize ((play oneCell (new 0 0 none : WriteThrough _ Unit Str) []).call oneCell
      ⟨.given, .appendAtom (.eConst (.vString (str "v"))) cellPath [] 10⟩).1 = r
    rcases r with msg | hash
    · exact fun h => by cases h
    · exact fun _ => ⟨hash, rfl⟩
  refine ⟨by decide +kernel, (deadline_respected_iff (by decide) hnano hok (by decide)
    (by decide +kernel)).2 fun x hx => ?_⟩
  rintro ⟨text, htext, -⟩
  rw [hnone x hx] at htext
  cases htext

end Instances

end Wavicle.Storage
