import Wavicle.Lib.Interleave
import Wavicle.Replication.Applier
import Wavicle.Storage.Retention

/-! # Convergence of a replicated column

`runCDCApplier` compares the commit time of a change with the time at which the previous one was *applied*: a
change that was committed before that is dropped.

* `Replica`: a local cache and the store that is asked for the current atom, which is the cache itself
  (`Replica.direct`) or a `WriteThroughStore` around it (`Replica.writeThrough`).
* `Replica.apply`, `run_runCDCApplier`: the applier takes the affected paths of its events one by one.
* `Replica.Delivers`: the runs in which only the applier writes to a path.
* `Replica.Takes`: the change is taken in, by what `GetCurrent` returns and leaves in the cache.
* `cdc_converges_iff`: exactly then the path has the text of the change, until the memory ceiling takes it. -/

namespace Wavicle.Replication

open Lib Wavicle.Core Storage ShardedFrontierCache

section

variable {σ δ ι H : Type} [DecidableEq H] [Hashing H] [Printing] [RuneClasses]

/-! ### What the cache has -/

/-- The value of a path in the local frontier. -/
def localValue (w : World ι H) (p : Str) : Option (Value ι) :=
  (w.current p).bind fun a => a.expr.constValue

/-- The path takes in a text with a deadline. -/
def TakesIn (w : World ι H) (p v : Str) (d : Time) : Prop :=
  w.Accepts Expr.constValue (.eConst (.vString v)) p d

variable {p : Str} {w w' : World ι H}

/-- Nothing but an eviction happens to the path. -/
def Leaves (p : Str) (w w' : World ι H) : Prop :=
  w'.cache.resident p = w.cache.resident p ∨ w'.cache.resident p = none

omit [DecidableEq H] [Printing] [RuneClasses] in
theorem Leaves.refl (p : Str) (w : World ι H) : Leaves p w w := .inl rfl

omit [DecidableEq H] [Printing] [RuneClasses] in
theorem Leaves.trans {w'' : World ι H} (h : Leaves p w w') (h' : Leaves p w' w'') : Leaves p w w'' := by
  rcases h' with heq | hnone
  · exact h.imp heq.trans heq.trans
  · exact .inr hnone

omit [Printing] [RuneClasses] in
theorem leaves_append {q : Str} (hq : q ≠ p) (w : World ι H) (e : Expr ι H) (d : Time) :
    Leaves p w (w.append e q d).2 := by
  refine w.resident_act_of_not_writes (a := .call ⟨.inner, .appendAtom e q [] d⟩) ?_
  rintro e' t ⟨via, parents, heq⟩
  simp only [World.Act.call.injEq, StoreCall.mk.injEq, StoreOp.appendAtom.injEq] at heq
  exact hq heq.2.2.1

/-! ### Replicas -/

/-- A local cache, and a store that is asked for the current atom. -/
structure Replica (σ ι H : Type) [DecidableEq H] [Hashing H] where
  call : σ → (c : StoreCall ι H) → c.op.Res × σ
  cache : σ → World ι H
  /-- what happens besides the applier: time, sweeps, readers, and what becomes of the database -/
  Idle : σ → σ → Prop
  append : ∀ s e p t, cache (call s ⟨.inner, .appendAtom e p [] t⟩).2 = ((cache s).append e p t).2
  idle : ∀ s s', Idle s s' → World.Sound (cache s) → World.Sound (cache s')
  ask : ∀ s p, World.Sound (cache s) → World.Sound (cache (call s ⟨.given, .getCurrent p⟩).2)
  /-- a question about another path leaves the path alone -/
  others : ∀ s p q, q ≠ p → Leaves p (cache s) (cache (call s ⟨.given, .getCurrent q⟩).2)

/-- The applier asks the cache itself. -/
def Replica.direct (ι H : Type) [DecidableEq H] [Hashing H] : Replica (World ι H) ι H where
  call := World.call
  cache := id
  Idle := World.Idle
  append _ _ _ _ := rfl
  idle _ _ h hs := hs.idle h
  ask _ p hs := hs.act (.call ⟨.given, .getCurrent p⟩)
  others w p q _ := .inl (congrFun (w.cache.same_getCurrent w.now q).resident p)

section WriteThrough

variable (S : Sql δ ι)

def touched (w : World ι H) (p : Str) : World ι H := (w.call ⟨.inner, .getCurrent p⟩).2

/-- What `GetCurrent` of a `WriteThroughStore` does to the cache: it reads, and it may fill in a text. -/
theorem getCurrent_cases (w : WriteThrough δ ι H) (p : Str) :
    (w.call S ⟨.given, .getCurrent p⟩).2.cache = touched w.cache p ∨ ∃ text,
      (w.call S ⟨.given, .getCurrent p⟩).2.cache =
        ((touched w.cache p).append (.eConst (.vString text)) p zeroTime).2 := by
  have hfst : (WriteThrough.step S w (.getCurrent p)).1 = w.cache.current p :=
    getCurrent_fst ..
  change ((WriteThrough.getCurrent p).run (WriteThrough.step S) w).2.cache = _ ∨ ∃ text,
    ((WriteThrough.getCurrent p).run (WriteThrough.step S) w).2.cache = _
  unfold WriteThrough.getCurrent
  simp only [TierOp.ask, Prog.ask_bind, Prog.run_call, hfst]
  cases w.cache.current p with
  | none =>
    simp only [Prog.run_call]
    cases (WriteThrough.step S (WriteThrough.step S w (.getCurrent p)).2 (.select p)).1 with
    | none => exact .inl rfl
    | some text => exact .inr ⟨text, rfl⟩
  | some cached =>
    simp only [Prog.run_call]
    split_ifs
    · simp only [Prog.run_call]
      cases (WriteThrough.step S (WriteThrough.step S (WriteThrough.step S w
          (.getCurrent p)).2 .clock).2 (.select p)).1 with
      | none => exact .inl rfl
      | some text =>
        simp only
        split_ifs
        · exact .inr ⟨text, rfl⟩
        · exact .inl rfl
    · exact .inl rfl

theorem sound_getCurrent {w : WriteThrough δ ι H} (h : w.cache.Sound) (p : Str) :
    World.Sound (w.call S ⟨.given, .getCurrent p⟩).2.cache := by
  have htouched : World.Sound (touched w.cache p) := h.act (.call ⟨.inner, .getCurrent p⟩)
  rcases getCurrent_cases S w p with hcache | ⟨text, hcache⟩
  · rwa [hcache]
  · rw [hcache]
    exact htouched.append _ p zeroTime

/-- What happens to a `WriteThroughStore` besides the applier. -/
inductive TierIdle (w : WriteThrough δ ι H) : WriteThrough δ ι H → Prop where
  | cache {c : World ι H} (h : World.Idle w.cache c) : TierIdle w { w with cache := c }
  | database (db : δ) : TierIdle w { w with db := db }
  | read (q : Str) : TierIdle w (w.call S ⟨.given, .getCurrent q⟩).2

/-- The applier asks a `WriteThroughStore` around the cache. -/
def Replica.writeThrough : Replica (WriteThrough δ ι H) ι H where
  call := WriteThrough.call S
  cache := WriteThrough.cache
  Idle := TierIdle S
  append _ _ _ _ := rfl
  idle w w' h hs := by
    cases h with
    | cache h => exact hs.idle h
    | database db => exact hs
    | read q => exact sound_getCurrent S hs q
  ask w p hs := sound_getCurrent S hs p
  others w p q hq := by
    have htouched : Leaves p w.cache (touched w.cache q) :=
      .inl (congrFun (w.cache.cache.same_getCurrent w.cache.now q).resident p)
    rcases getCurrent_cases S w q with hcache | ⟨text, hcache⟩
    · rwa [hcache]
    · rw [hcache]
      exact htouched.trans (leaves_append hq _ _ _)

end WriteThrough

/-! ### Runs -/

/-- The change gives the text `v` to the column of `p`. -/
def Gives (p v : Str) (evt : ChangeEvent) : Prop :=
  evt.action ≠ .delete ∧ p ∈ evt.affectedPaths ∧
    (afterLast 58 p).bind evt.newValues.lookup = some (.text v)

namespace Replica

variable (R : Replica σ ι H)

/-- The applier takes one path of an event. -/
def apply (s : σ) (evt : ChangeEvent) (q : Str) : σ := ((applyPath evt q).run R.call s).2

omit [RuneClasses] in
/-- **The applier takes the affected paths of its events one by one.** -/
theorem run_runCDCApplier (events : List ChangeEvent) (s : σ) : ((runCDCApplier events).run R.call s).2 =
    (events.flatMap fun evt => evt.affectedPaths.map (evt, ·)).foldl (fun s x => R.apply s x.1 x.2) s := by
  have hpaths : ∀ (evt : ChangeEvent) (paths : List Str) (s : σ), ((applyPaths evt paths).run R.call s).2 =
      (paths.map (evt, ·)).foldl (fun s x => R.apply s x.1 x.2) s := by
    intro evt paths
    induction paths with
    | nil => exact fun s => rfl
    | cons q paths ih =>
      intro s
      rw [applyPaths, Prog.run_bind, ih]
      rfl
  induction events generalizing s with
  | nil => rfl
  | cons evt events ih =>
    rw [runCDCApplier, Prog.run_bind, ih, List.flatMap_cons, List.foldl_append, hpaths]

/-- Only the applier writes to `p`: the changes of its column are applied one after another, each at some time not
before its commit. Between them other paths are taken, and there is whatever else happens. -/
inductive Delivers (p : Str) (s₀ : σ) : List ChangeEvent → σ → Prop where
  | start : Delivers p s₀ [] s₀
  | idle {changes : List ChangeEvent} {s s' : σ} (h : Delivers p s₀ changes s) (hidle : R.Idle s s') :
      Delivers p s₀ changes s'
  | other {changes : List ChangeEvent} {s : σ} (h : Delivers p s₀ changes s) (evt : ChangeEvent) {q : Str}
      (hq : q ≠ p) : Delivers p s₀ changes (R.apply s evt q)
  | deliver {changes : List ChangeEvent} {s : σ} {evt : ChangeEvent} {v : Str}
      (h : Delivers p s₀ changes s) (hgives : Gives p v evt)
      (hafter : evt.commitTime ≤ (R.cache s).now) :
      Delivers p s₀ (changes ++ [evt]) (R.apply s evt p)

variable {R} {evt : ChangeEvent}

section

omit [RuneClasses]

theorem sound_apply {s : σ} (hs : World.Sound (R.cache s)) (evt : ChangeEvent) (q : Str) :
    World.Sound (R.cache (R.apply s evt q)) := by
  have happend : ∀ {s} v d, World.Sound (R.cache s) →
      World.Sound (R.cache ((appendLocal v q d).run R.call s).2) := by
    intro s v d hs
    have hcache := R.append s (.eConst v) q d
    exact hcache ▸ hs.append (.eConst v) q d
  unfold apply applyPath
  split_ifs
  · exact happend _ _ hs
  · split
    · exact hs
    · simp only [Prog.ask_bind, Prog.run_call]
      have hask := R.ask s q hs
      split
      · exact happend _ _ hask
      · split_ifs
        · exact hask
        · exact hask
        · exact happend _ _ hask

theorem leaves_apply (s : σ) (evt : ChangeEvent) {p q : Str} (hq : q ≠ p) :
    Leaves p (R.cache s) (R.cache (R.apply s evt q)) := by
  have happend : ∀ {s} v d, Leaves p (R.cache s) (R.cache ((appendLocal v q d).run R.call s).2) := by
    intro s v d
    have hcache := R.append s (.eConst v) q d
    exact hcache ▸ leaves_append hq (R.cache s) (.eConst v) d
  unfold apply applyPath
  split_ifs
  · exact happend _ _
  · split
    · exact .refl _ _
    · simp only [Prog.ask_bind, Prog.run_call]
      have hask := R.others s p q hq
      split
      · exact hask.trans (happend _ _)
      · split_ifs
        · exact hask
        · exact hask
        · exact hask.trans (happend _ _)

theorem Delivers.sound {p : Str} {s₀ s : σ} {changes : List ChangeEvent} (h : R.Delivers p s₀ changes s)
    (hs : World.Sound (R.cache s₀)) : World.Sound (R.cache s) := by
  induction h with
  | start => exact hs
  | idle _ hidle ih => exact R.idle _ _ hidle ih
  | other _ evt _ ih => exact sound_apply ih evt _
  | deliver _ _ _ ih => exact sound_apply ih _ _

end

variable (R)

/-- **A change to `v` is taken in.** If `GetCurrent` finds an atom that is younger than the commit, or prints like
the text, the change is dropped, so the cache must have the text already; else the path must take the text in, with
the deadline of the atom. Everything is asked of the cache as `GetCurrent` leaves it, which may have filled in what
the database has. -/
def Takes (s : σ) (p v : Str) (commitTime : Time) : Prop :=
  match (R.call s ⟨.given, .getCurrent p⟩).1 with
  | none => TakesIn (R.cache (R.call s ⟨.given, .getCurrent p⟩).2) p v zeroTime
  | some a =>
    if commitTime < a.physicalTime ∨ extractAtomValue a = some v then
      localValue (R.cache (R.call s ⟨.given, .getCurrent p⟩).2) p = some (.vString v)
    else TakesIn (R.cache (R.call s ⟨.given, .getCurrent p⟩).2) p v a.expiresAt

variable {R}

omit [RuneClasses] in
/-- The step: the path has the text after a change exactly if the change is taken in. -/
theorem localValue_apply_iff {s : σ} {p v : Str} (h : Gives p v evt) (hs : World.Sound (R.cache s)) :
    localValue (R.cache (R.apply s evt p)) p = some (.vString v) ↔ R.Takes s p v evt.commitTime := by
  have happend : ∀ {s} d, World.Sound (R.cache s) → (localValue (R.cache
      ((appendLocal (.vString v) p d).run R.call s).2) p = some (.vString v) ↔ TakesIn (R.cache s) p v d) := by
    intro s d hs
    have htaken := hs.accepts_iff (g := Expr.constValue) (e := .eConst (.vString v)) (Option.some_ne_none _) p d
    rw [← R.append] at htaken
    exact htaken
  have hask := R.ask s p hs
  have hsprint : (Cell.text v).sprint = v := rfl
  unfold apply applyPath Takes
  rw [if_neg h.1, h.2.2]
  simp only [Prog.ask_bind, Prog.run_call, hsprint]
  cases (R.call s ⟨.given, .getCurrent p⟩).1 with
  | none => exact happend zeroTime hask
  | some a =>
    dsimp only
    by_cases hlater : evt.commitTime < a.physicalTime
    · rw [if_pos hlater, if_pos (.inl hlater)]
      rfl
    · by_cases hsame : extractAtomValue a = some v
      · rw [if_neg hlater, if_pos hsame, if_pos (.inr hsame)]
        rfl
      · rw [if_neg hlater, if_neg hsame, if_neg (not_or.2 ⟨hlater, hsame⟩)]
        exact happend a.expiresAt hask

variable (R)

/-- Other paths are taken, as those that come after `p` in the last event. -/
def Others (p : Str) : σ → σ → Prop :=
  Relation.ReflTransGen fun s t => ∃ evt q, q ≠ p ∧ t = R.apply s evt q

/-- After a run of changes to the column of `p`, the path has the text of the last change exactly if that is taken
in, and then it has it until it is evicted. -/
def ConvergesIff : Prop :=
  ∀ (p : Str) (s₀ : σ) (changes : List ChangeEvent) (s : σ) (last : ChangeEvent) (v : Str),
    World.Sound (R.cache s₀) → R.Delivers p s₀ changes s → Gives p v last →
      (localValue (R.cache (R.apply s last p)) p = some (.vString v) ↔ R.Takes s p v last.commitTime) ∧
      ∀ t, R.Others p (R.apply s last p) t → Leaves p (R.cache (R.apply s last p)) (R.cache t)

/-- The path has the text of the last change, whatever the commit times. -/
def Converges : Prop :=
  ∀ (p : Str) (s₀ : σ) (changes : List ChangeEvent) (s : σ) (last : ChangeEvent) (v : Str),
    World.Sound (R.cache s₀) → R.Delivers p s₀ changes s → Gives p v last →
    last.commitTime ≤ (R.cache s).now → ((changes ++ [last]).map (·.commitTime)).Pairwise (· ≤ ·) →
      localValue (R.cache (R.apply s last p)) p = some (.vString v)

omit [RuneClasses] in
theorem convergesIff : R.ConvergesIff := by
  intro p s₀ changes s last v hs hrun hgives
  refine ⟨localValue_apply_iff hgives (hrun.sound hs), fun t hothers => ?_⟩
  induction hothers with
  | refl => exact .refl _ _
  | tail _ hstep ih =>
    obtain ⟨evt, q, hq, rfl⟩ := hstep
    exact ih.trans (leaves_apply _ evt hq)

end Replica

/-- **Convergence of a replicated column**, exactly: for an applier that asks the cache itself, and
for one that asks a `WriteThroughStore` around it. -/
theorem cdc_converges_iff : (Replica.direct ι H).ConvergesIff ∧
    ∀ S : Sql δ ι, (Replica.writeThrough S : Replica (WriteThrough δ ι H) ι H).ConvergesIff :=
  ⟨Replica.convergesIff _, fun _ => Replica.convergesIff _⟩

end

section Instances

local instance replicaHashing : Hashing Str := ⟨id, id, fun _ => 0⟩

local instance replicaPrinting : Printing := ⟨fun _ => []⟩

local instance replicaRunes : RuneClasses := ⟨fun _ => false⟩

def columnPath : Str := str "t:1:c"

def changeTo (v : String) (commitTime : Time) : ChangeEvent :=
  ⟨.update, (∅ : GoMap Str Cell).insert (str "c") (.text (str v)), [columnPath], commitTime⟩

theorem changeTo_gives (v : String) (commitTime : Time) :
    Gives columnPath (str v) (changeTo v commitTime) := by
  refine ⟨by simp [changeTo], .head _, ?_⟩
  have hcolumn : afterLast 58 columnPath = some (str "c") := by decide
  rw [hcolumn]
  exact (GoMap.lookup_insert ∅ (str "c") (str "c") _).trans (if_pos rfl)

/-- The change to `a`, committed at 1, has been applied at 10; now it is 11. -/
def oneChange : World Unit Str :=
  { (Replica.direct Unit Str).apply (World.init 0 10) (changeTo "a" 1) columnPath with now := 11 }

theorem oneChange_delivers : (Replica.direct Unit Str).Delivers columnPath (World.init 0 10)
    [changeTo "a" 1] oneChange :=
  .idle (.deliver .start (changeTo_gives "a" 1) (by decide)) (.tick 11 (by decide))

/-- A change that was committed at 2, before the previous one was applied at 10, is dropped. -/
theorem late_change_lost : ¬ (Replica.direct Unit Str).Converges := by
  intro h
  have hvalue := h columnPath _ _ _ (changeTo "b" 2) (str "b") (World.sound_init 0 10)
    oneChange_delivers (changeTo_gives "b" 2) (by decide) (by decide)
  exact absurd hvalue (by decide +kernel)

theorem cdc_converges_iff_in_time :
    localValue ((Replica.direct Unit Str).apply oneChange (changeTo "b" 10) columnPath) columnPath =
      some (.vString (str "b")) := by
  refine ((cdc_converges_iff (δ := Unit)).1 columnPath _ _ _ (changeTo "b" 10) (str "b")
    (World.sound_init 0 10) oneChange_delivers (changeTo_gives "b" 10)).1.2 ?_
  have hfound : (oneChange.call ⟨.given, .getCurrent columnPath⟩).1.isSome := by decide +kernel
  have hfacts : ((oneChange.call ⟨.given, .getCurrent columnPath⟩).1.all fun a => a.physicalTime ≤ 10 ∧
      extractAtomValue a ≠ some (str "b") ∧ a.expiresAt = zeroTime) = true := by decide +kernel
  obtain ⟨a, ha⟩ := Option.isSome_iff_exists.1 hfound
  rw [ha, Option.all_some, decide_eq_true_iff] at hfacts
  obtain ⟨htime, hother, hzero⟩ := hfacts
  unfold Replica.Takes
  rw [show ((Replica.direct Unit Str).call oneChange ⟨.given, .getCurrent columnPath⟩).1 = some a from ha]
  dsimp only
  have htaken : ¬ ((changeTo "b" 10).commitTime < a.physicalTime ∨ extractAtomValue a = some (str "b")) :=
    not_or.2 ⟨not_lt.2 htime, hother⟩
  rw [if_neg htaken, hzero]
  unfold TakesIn World.Accepts
  rw [if_neg (by decide +kernel)]
  exact ⟨by decide +kernel, .inl rfl⟩

end Instances

end Wavicle.Replication
