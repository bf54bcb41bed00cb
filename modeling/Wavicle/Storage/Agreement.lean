import Wavicle.Storage.Retention
import Wavicle.Lib.Pool

/-! # Agreement of the two stores

Any number of threads call `AppendAtom` and `GetCurrent` of a `WriteThroughStore` on one path. The write to the
database and the append to the cache are two steps, and so are the read of the database and the fill of the cache;
nothing orders the steps of different calls.

* `session`, `Callers`, `move`: the calls of each thread, and one step of some thread.
* `Orderly`: what is asked of the state before a step; `OrderlyRun`: of the states before all steps of a run.
* `Inv`: what a thread has written and not yet appended is what the database has, and when no write is on its way the
  stores agree.
* `concurrent_writes_agree`, `fills_keep_last_write`: what holds after an orderly run. -/

namespace Wavicle.Storage

open Lib Wavicle.Core WriteThrough

section

variable {δ ι H : Type} [DecidableEq H] [Hashing H] [Printing] [RuneClasses]

def exprText (e : Expr ι H) : Option Str := e.constValue.bind valueText

namespace WriteThrough

def localText (w : WriteThrough δ ι H) (p : Str) : Option Str :=
  (w.cache.current p).bind fun a => exprText a.expr

def primaryText (S : Sql δ ι) (w : WriteThrough δ ι H) (p : Str) : Option Str :=
  PostgresStore.getCurrent S w.db p

/-- A call of the store with its database, on one path. -/
inductive TierCall (ι H : Type) where
  | append (expr : Expr ι H) (expiresAt : Time)
  | get

/-- Calls on the path `p`, one after another. -/
def session (p : Str) : List (TierCall ι H) → TierProg ι H Unit
  | [] => pure ()
  | .append expr expiresAt :: cs => do
    let _ ← appendAtom expr p expiresAt
    session p cs
  | .get :: cs => do
    let _ ← getCurrent p
    session p cs

/-! ### Runs -/

/-- The two stores, and the text of the last write to the database, if there was one. -/
structure Watched (δ ι H : Type) where
  store : WriteThrough δ ι H
  lastWrite : Option (Option Str)

def observe (last : Option (Option Str)) : (op : TierOp ι H) → op.Res → Option (Option Str)
  | .upsert expr _, none => some (exprText expr)
  | _, _ => last

variable (S : Sql δ ι) (p : Str)

def watchedStep (w : Watched δ ι H) (op : TierOp ι H) : op.Res × Watched δ ι H :=
  let (r, store) := step S w.store op
  (r, ⟨store, observe w.lastWrite op r⟩)

/-- Threads that call a `WriteThroughStore`. -/
abbrev Callers (δ ι H : Type) := Pool (fun op : TierOp ι H => op.Res) Unit (Watched δ ι H)

/-- A thread takes its next step, or time passes. -/
inductive Move where
  | thread (i : ℕ)
  | wait (nanoseconds : ℕ)

def Watched.wait (w : Watched δ ι H) (nanoseconds : ℕ) : Watched δ ι H :=
  { w with store := { w.store with cache := { w.store.cache with
    now := w.store.cache.now + nanoseconds } } }

def move (x : Callers δ ι H) : Move → Callers δ ι H
  | .thread i => x.advance (watchedStep S) i
  | .wait nanoseconds => { x with state := x.state.wait nanoseconds }

def after (x : Callers δ ι H) (moves : List Move) : Callers δ ι H := moves.foldl (move S) x

/-- Threads that are about to make the calls `sessions` on `p`. -/
def start (w : WriteThrough δ ι H) (sessions : List (List (TierCall ι H))) : Callers δ ι H :=
  ⟨⟨w, none⟩, sessions.map (session p)⟩

/-- A write is on its way: the database has it, and the cache not yet. -/
def Writing (x : Callers δ ι H) : Prop := ∃ i e q t, x.next i = some (.append e q t)

/-- **What is asked of the state before a step.** Before a write to the database: it is one of a text or of null, and
every other write that is on its way to the cache has the same text; or the database refuses it with an error that
stops the write. Before an append to the cache: the path takes the text in; and if it is a fill, the database still
has this text, unless a write is on its way to the cache. And no deadline passes. -/
def Orderly (x : Callers δ ι H) : Move → Prop
  | .thread i =>
    match x.next i with
    | some (.upsert e _) =>
      match PostgresStore.appendAtom S x.state.store.db e p with
      | .ok _ => isPlainText e = true ∧
        ∀ j e' q t, j ≠ i → x.next j = some (.append e' q t) → exprText e' = exprText e
      | .error msg => tolerated msg = false
    | some (.append e _ t) => x.state.store.cache.Accepts exprText e p t
    | some (.fill _ text) =>
      (x.state.store.primaryText S p = some text ∧
        x.state.store.cache.Accepts exprText (.eConst (.vString text)) p zeroTime) ∨ Writing x
    | _ => True
  | .wait nanoseconds => ∀ a, x.state.store.cache.current p = some a →
    a.expiresAt = zeroTime ∨ x.state.store.cache.now + nanoseconds ≤ a.expiresAt

/-! ### What a thread does next -/

/-- A program of calls on `p`: it appends to the cache what it has written to the database, and
nothing else but fills. `pending` is what it has written and not yet appended. -/
def Proper {α : Type} (p : Str) : Option (Expr ι H) → TierProg ι H α → Prop
  | pending, .ret _ => pending = none
  | pending, .call (.upsert e q) k => pending = none ∧ q = p ∧ Proper p (some e) (k none) ∧
      ∀ msg, Proper p (if tolerated msg then some e else none) (k (some msg))
  | pending, .call (.append e q _) k => pending = some e ∧ q = p ∧ ∀ r, Proper p none (k r)
  | pending, .call (.select _) k => pending = none ∧ ∀ r, Proper p none (k r)
  | pending, .call (.fill q _) k => pending = none ∧ q = p ∧ ∀ r, Proper p none (k r)
  | pending, .call (.getCurrent _) k => pending = none ∧ ∀ r, Proper p none (k r)
  | pending, .call (.getAtom _) k => pending = none ∧ ∀ r, Proper p none (k r)
  | pending, .call .clock k => pending = none ∧ ∀ r, Proper p none (k r)

variable {S p}

section

omit [DecidableEq H] [Hashing H] [Printing] [RuneClasses]

theorem Proper.bind {α β : Type} {f : α → TierProg ι H β} (hf : ∀ a, Proper p none (f a)) :
    ∀ {q : TierProg ι H α} {pending : Option (Expr ι H)}, Proper p pending q →
      Proper p pending (q >>= f)
  | .ret a, _, h => by
    obtain rfl : _ = none := h
    exact hf a
  | .call (.upsert _ _) _, _, ⟨h, hq, hok, herr⟩ => ⟨h, hq, hok.bind hf, fun msg => (herr msg).bind hf⟩
  | .call (.append _ _ _) _, _, ⟨h, hq, hk⟩ => ⟨h, hq, fun r => (hk r).bind hf⟩
  | .call (.select _) _, _, ⟨h, hk⟩ => ⟨h, fun r => (hk r).bind hf⟩
  | .call (.fill _ _) _, _, ⟨h, hq, hk⟩ => ⟨h, hq, fun r => (hk r).bind hf⟩
  | .call (.getCurrent _) _, _, ⟨h, hk⟩ => ⟨h, fun r => (hk r).bind hf⟩
  | .call (.getAtom _) _, _, ⟨h, hk⟩ => ⟨h, fun r => (hk r).bind hf⟩
  | .call .clock _, _, ⟨h, hk⟩ => ⟨h, fun r => (hk r).bind hf⟩

theorem proper_appendAtom (e : Expr ι H) (t : Time) : Proper p none (appendAtom e p t) := by
  refine ⟨rfl, rfl, ⟨rfl, rfl, fun _ => rfl⟩, fun msg => ?_⟩
  change Proper p _ (if tolerated msg then _ else _)
  split_ifs
  · exact ⟨rfl, rfl, fun _ => rfl⟩
  · exact rfl

theorem proper_seed (text : Str) : Proper p none (seed p text : TierProg ι H _) :=
  ⟨rfl, rfl, fun _ => ⟨rfl, fun _ => rfl⟩⟩

end

omit [DecidableEq H] [Hashing H] [RuneClasses] in
theorem proper_getCurrent : Proper p none (getCurrent p : TierProg ι H _) := by
  refine ⟨rfl, fun found => ?_⟩
  cases found with
  | none =>
    refine ⟨rfl, fun text => ?_⟩
    cases text with
    | none => exact rfl
    | some text => exact proper_seed text
  | some cached =>
    refine ⟨rfl, fun now => ?_⟩
    change Proper p none (if aged now cached then _ else _)
    split_ifs
    · refine ⟨rfl, fun text => ?_⟩
      cases text with
      | none => exact rfl
      | some text =>
        change Proper p none (if extractAtomValue cached ≠ some text then _ else _)
        split_ifs
        · refine Proper.bind (fun updated => ?_) (proper_seed text)
          exact rfl
        · exact rfl
    · exact rfl

omit [DecidableEq H] [Hashing H] [RuneClasses] in
theorem proper_session : ∀ cs : List (TierCall ι H), Proper p none (session p cs)
  | [] => rfl
  | .append e t :: cs => (proper_appendAtom e t).bind fun _ => proper_session cs
  | .get :: cs => proper_getCurrent.bind fun _ => proper_session cs

omit [DecidableEq H] [Hashing H] [Printing] [RuneClasses] in
theorem Proper.exists_append {α : Type} {q : TierProg ι H α} {e : Expr ι H}
    (h : Proper p (some e) q) : ∃ t k, q = .call (.append e p t) k := by
  match q, h with
  | .call (.append _ _ t) k, ⟨he, rfl, _⟩ =>
    obtain rfl := Option.some.inj he
    exact ⟨t, k, rfl⟩

/-! ### The invariant -/

/-- `agreed` says that the two stores agreed at the start. -/
structure Inv (S : Sql δ ι) (p : Str) (agreed : Prop) (x : Callers δ ι H) : Prop where
  threads : ∀ (i : ℕ) q, x.threads[i]? = some q → ∃ pending, Proper p pending q ∧
    ∀ e, pending = some e → x.state.store.primaryText S p = exprText e
  written : ∀ text, x.state.lastWrite = some text → x.state.store.primaryText S p = text
  settled : agreed ∨ x.state.lastWrite ≠ none → ¬ Writing x →
    x.state.store.localText p = x.state.store.primaryText S p
  sound : x.state.store.cache.Sound

theorem inv_start {w : WriteThrough δ ι H} (hw : w.cache.Sound) (sessions : List (List (TierCall ι H))) :
    Inv S p (w.localText p = w.primaryText S p) (start p w sessions) where
  threads i q hq := by
    obtain ⟨cs, -, rfl⟩ := List.mem_map.1 (List.mem_of_getElem? hq)
    exact ⟨none, proper_session cs, by simp⟩
  written text h := by cases h
  settled h _ := h.resolve_right (by simp [start])
  sound := hw

section Step

variable {agreed : Prop} {x : Callers δ ι H} {i : ℕ} {op : TierOp ι H}
  {k : op.Res → TierProg ι H Unit}

theorem Inv.pending (hx : Inv S p agreed x) {j : ℕ} {e : Expr ι H} {q : Str} {t : Time}
    (hj : x.next j = some (.append e q t)) : x.state.store.primaryText S p = exprText e := by
  obtain ⟨k, hk⟩ := Pool.next_eq_some.1 hj
  obtain ⟨pending, ⟨rfl, -, -⟩, hprimary⟩ := hx.threads j _ hk
  exact hprimary e rfl

omit [DecidableEq H] [Hashing H] [Printing] [RuneClasses] in
theorem Writing.set (h : Writing x) (hi : x.threads[i]? = some (.call op k))
    (hop : ∀ e q t, op ≠ .append e q t) (s : Watched δ ι H) (q : TierProg ι H Unit) :
    Writing (⟨s, x.threads.set i q⟩ : Callers δ ι H) := by
  obtain ⟨j, e, q', t, hj⟩ := h
  obtain ⟨k', hk'⟩ := Pool.next_eq_some.1 hj
  have hne : i ≠ j := by
    rintro rfl
    rw [hi] at hk'
    cases hk'
    exact hop e q' t rfl
  refine ⟨j, e, q', t, Pool.next_eq_some.2 ⟨k', ?_⟩⟩
  exact (List.getElem?_set_ne hne).trans hk'

theorem Inv.set (hx : Inv S p agreed x) (hi : x.threads[i]? = some (.call op k))
    {s : Watched δ ι H} {q : TierProg ι H Unit} {pending : Option (Expr ι H)} (hq : Proper p pending q)
    (hpending : ∀ e, pending = some e → s.store.primaryText S p = exprText e)
    (hothers : ∀ j e q t, j ≠ i → x.next j = some (.append e q t) → s.store.primaryText S p = exprText e)
    (hwritten : ∀ text, s.lastWrite = some text → s.store.primaryText S p = text)
    (hsettled : agreed ∨ s.lastWrite ≠ none → ¬ Writing (⟨s, x.threads.set i q⟩ : Callers δ ι H) →
        s.store.localText p = s.store.primaryText S p) (hsound : s.store.cache.Sound) :
    Inv S p agreed ⟨s, x.threads.set i q⟩ := by
  refine ⟨fun j q' hj => ?_, hwritten, hsettled, hsound⟩
  rcases Pool.getElem?_set_thread hi hj with ⟨-, rfl⟩ | ⟨hne, hj⟩
  · exact ⟨pending, hq, hpending⟩
  · obtain ⟨pending', hproper, -⟩ := hx.threads j q' hj
    refine ⟨pending', hproper, fun e he => ?_⟩
    subst he
    obtain ⟨t, k', rfl⟩ := hproper.exists_append
    exact hothers j e p t hne (Pool.next_eq_some.2 ⟨k', hj⟩)

theorem Inv.read (hx : Inv S p agreed x) (hi : x.threads[i]? = some (.call op k))
    (hop : ∀ e q t, op ≠ .append e q t) {s : Watched δ ι H} {q : TierProg ι H Unit}
    (hq : Proper p none q) (hprimary : s.store.primaryText S p = x.state.store.primaryText S p)
    (hlast : s.lastWrite = x.state.lastWrite) (hlocal : s.store.localText p = x.state.store.localText p)
    (hsound : s.store.cache.Sound) : Inv S p agreed ⟨s, x.threads.set i q⟩ := by
  refine hx.set hi hq (by simp) (fun j e q t _ hj => hprimary.trans (hx.pending hj))
    (fun text htext => ?_) (fun hagreed hwriting => ?_) hsound
  · rw [hprimary]
    exact hx.written text (hlast ▸ htext)
  · rw [hlocal, hprimary]
    exact hx.settled (hlast ▸ hagreed) fun h => hwriting (h.set hi hop s q)

theorem localText_getCurrent (S : Sql δ ι) (w : WriteThrough δ ι H) (q : Str) :
    (step S w (.getCurrent q)).2.localText p = w.localText p := by
  have h := w.cache.cache.same_getCurrent w.cache.now q
  exact congrArg (fun a : Option (CausalAtom ι H) => a.bind fun a => exprText a.expr)
    (congrFun (h.current w.cache.now) p)

theorem Inv.upsert (hS : S.TextPath p) (hx : Inv S p agreed x) {e : Expr ι H}
    {k : Option Str → TierProg ι H Unit} (hi : x.threads[i]? = some (.call (.upsert e p) k))
    (hnone : Proper p (some e) (k none))
    (herr : ∀ msg, Proper p (if tolerated msg then some e else none) (k (some msg)))
    (hok : match PostgresStore.appendAtom S x.state.store.db e p with
      | .ok _ => isPlainText e = true ∧
        ∀ j e' q t, j ≠ i → x.next j = some (.append e' q t) → exprText e' = exprText e
      | .error msg => tolerated msg = false) :
    Inv S p agreed ⟨(watchedStep S x.state (.upsert e p)).2,
      x.threads.set i (k (watchedStep S x.state (.upsert e p)).1)⟩ := by
  cases hdb : PostgresStore.appendAtom S x.state.store.db e p with
  | ok db =>
    have hstep : watchedStep S x.state (.upsert e p) =
        (none, ⟨{ x.state.store with db := db }, some (exprText e)⟩) := by
      simp [watchedStep, step, hdb, observe]
    rw [hdb] at hok
    have hprimary : primaryText S { x.state.store with db := db } p = exprText e :=
      PostgresStore.getCurrent_appendAtom hS hok.1 hdb
    rw [hstep]
    refine hx.set hi hnone ?_ (fun j e' q t hne hj => hprimary.trans (hok.2 j e' q t hne hj).symm) ?_
      (fun _ hwriting => absurd ?_ hwriting) hx.sound
    · rintro e' he
      obtain rfl := Option.some.inj he
      exact hprimary
    · rintro text htext
      obtain rfl := Option.some.inj htext
      exact hprimary
    · obtain ⟨t, k', hk'⟩ := hnone.exists_append
      refine ⟨i, e, p, t, Pool.next_eq_some.2 ⟨k', ?_⟩⟩
      rw [List.getElem?_set_self (List.getElem?_eq_some_iff.1 hi).1]
      exact congrArg some hk'
  | error msg =>
    have hstep : watchedStep S x.state (.upsert e p) = (some msg, x.state) := by
      simp [watchedStep, step, hdb, observe]
    rw [hdb] at hok
    have hq := herr msg
    rw [show tolerated msg = false from hok] at hq
    rw [hstep]
    exact hx.read hi (by simp) hq rfl rfl rfl hx.sound

theorem Inv.thread (hS : S.TextPath p) (hx : Inv S p agreed x) (i : ℕ)
    (hok : Orderly S p x (.thread i)) : Inv S p agreed (x.advance (watchedStep S) i) := by
  cases hnext : x.next i with
  | none => rwa [Pool.advance_of_next_eq_none hnext]
  | some op =>
    obtain ⟨k, hi⟩ := Pool.next_eq_some.1 hnext
    rw [Pool.advance_of_call hi]
    obtain ⟨pending, hproper, hpending⟩ := hx.threads i _ hi
    simp only [Orderly, hnext] at hok
    cases op with
    | upsert e q =>
      obtain ⟨rfl, rfl, hnone, herr⟩ := hproper
      exact hx.upsert hS hi hnone herr hok
    | append e q t =>
      obtain ⟨rfl, rfl, hk⟩ := hproper
      have hprimary := hpending e rfl
      exact hx.set hi (hk _) (by simp) (fun j e' q' t' _ hj => hx.pending hj) hx.written
        (fun _ _ => (hx.sound.shown_of_accepts hok).trans hprimary.symm) (hx.sound.append e q t)
    | fill q text =>
      obtain ⟨rfl, rfl, hk⟩ := hproper
      refine hx.set hi (hk _) (by simp) (fun j e' q' t' _ hj => hx.pending hj) hx.written
        (fun _ hwriting => ?_) (hx.sound.append _ q zeroTime)
      rcases hok with ⟨hprimary, htaken⟩ | hw
      · exact (hx.sound.shown_of_accepts htaken).trans hprimary.symm
      · exact absurd (hw.set hi (by simp) _ _) hwriting
    | select q =>
      obtain ⟨rfl, hk⟩ := hproper
      exact hx.read hi (by simp) (hk _) rfl rfl rfl hx.sound
    | getCurrent q =>
      obtain ⟨rfl, hk⟩ := hproper
      exact hx.read hi (by simp) (hk _) rfl rfl (localText_getCurrent S _ q)
        (hx.sound.act (.call ⟨.inner, .getCurrent q⟩))
    | getAtom h =>
      obtain ⟨rfl, hk⟩ := hproper
      exact hx.read hi (by simp) (hk _) rfl rfl rfl hx.sound
    | clock =>
      obtain ⟨rfl, hk⟩ := hproper
      exact hx.read hi (by simp) (hk _) rfl rfl rfl hx.sound

omit [DecidableEq H] [Printing] [RuneClasses] in
theorem current_wait {w : World ι H} {nanoseconds : ℕ} (h : ∀ a, w.current p = some a →
    a.expiresAt = zeroTime ∨ w.now + nanoseconds ≤ a.expiresAt) :
    ({ w with now := w.now + nanoseconds } : World ι H).current p = w.current p := by
  refine Option.ext fun a => ?_
  constructor
  · intro hcur
    obtain ⟨hres, hlive⟩ := ShardedFrontierCache.current_eq_some.1 hcur
    refine ShardedFrontierCache.current_eq_some.2 ⟨hres, (World.expired_eq_false_iff a w.now).2 ?_⟩
    refine ((World.expired_eq_false_iff a _).1 hlive).imp_right fun hle => ?_
    exact (Int.le_add_of_nonneg_right (Int.natCast_nonneg nanoseconds)).trans hle
  · intro hcur
    have hres := (ShardedFrontierCache.current_eq_some.1 hcur).1
    exact ShardedFrontierCache.current_eq_some.2 ⟨hres, (World.expired_eq_false_iff a _).2 (h a hcur)⟩

theorem Inv.move (hS : S.TextPath p) (hx : Inv S p agreed x) (m : Move) (hok : Orderly S p x m) :
    Inv S p agreed (move S x m) := by
  cases m with
  | thread i => exact hx.thread hS i hok
  | wait nanoseconds =>
    have hlocal : (x.state.wait nanoseconds).store.localText p = x.state.store.localText p :=
      congrArg (fun a : Option (CausalAtom ι H) => a.bind fun a => exprText a.expr) (current_wait hok)
    exact ⟨hx.threads, hx.written, fun hagreed hwriting => hlocal.trans (hx.settled hagreed hwriting),
      hx.sound.act (.wait nanoseconds)⟩

/-- Every step of the run is orderly in the state before it. -/
def OrderlyRun (S : Sql δ ι) (p : Str) (x : Callers δ ι H) (moves : List Move) : Prop :=
  ∀ before m rest, moves = before ++ m :: rest → Orderly S p (after S x before) m

theorem Inv.after (hS : S.TextPath p) (moves : List Move) : ∀ {x : Callers δ ι H}, Inv S p agreed x →
    OrderlyRun S p x moves → Inv S p agreed (after S x moves) := by
  induction moves with
  | nil => exact fun hx _ => hx
  | cons m moves ih =>
    intro x hx hrun
    refine ih (hx.move hS m (hrun [] m moves rfl)) fun before m' rest h => ?_
    exact hrun (m :: before) m' rest (by rw [h, List.cons_append])

omit [DecidableEq H] [Hashing H] [Printing] [RuneClasses] in
theorem not_writing_of_done (h : x.done = true) : ¬ Writing x := by
  rintro ⟨i, e, q, t, hi⟩
  rw [Pool.next_eq_none_of_done h i] at hi
  cases hi

end Step

/-! ### Concurrent writes, and fills during writes -/

/-- Any number of threads, each of which makes one `AppendAtom` call. -/
def writers (p : Str) (w : WriteThrough δ ι H) (calls : List (Expr ι H × Time)) : Callers δ ι H :=
  start p w (calls.map fun c => [.append c.1 c.2])

/-- One thread that makes `AppendAtom` calls one after another, and any number of threads that make
one `GetCurrent` call each. -/
def writerAndReaders (p : Str) (w : WriteThrough δ ι H) (writes : List (Expr ι H × Time))
    (readers : ℕ) : Callers δ ι H :=
  start p w (writes.map (fun c => .append c.1 c.2) :: List.replicate readers [.get])

/-- **Write-through agreement.** Any number of `AppendAtom` calls on one path run concurrently. In
every run whose steps are orderly, once all calls have completed the cache has the text that the
database has, if they had the same before or at least one write to the database has succeeded. -/
theorem concurrent_writes_agree (hS : S.TextPath p) {w : WriteThrough δ ι H} (hw : w.cache.Sound)
    (calls : List (Expr ι H × Time)) (moves : List Move) (hrun : OrderlyRun S p (writers p w calls) moves)
    (hdone : (after S (writers p w calls) moves).done = true) (hagreed : w.localText p = w.primaryText S p ∨
      (after S (writers p w calls) moves).state.lastWrite ≠ none) :
    (after S (writers p w calls) moves).state.store.localText p =
      (after S (writers p w calls) moves).state.store.primaryText S p :=
  ((inv_start hw _).after hS moves hrun).settled hagreed (not_writing_of_done hdone)

/-- **A fill does not bury a newer write.** One writer issues `AppendAtom` calls on one path, one
after another, while any number of `GetCurrent` calls run. In every run whose steps are orderly, once
all calls have completed the cache has the text of the last write to the database. -/
theorem fills_keep_last_write (hS : S.TextPath p) {w : WriteThrough δ ι H} (hw : w.cache.Sound)
    (writes : List (Expr ι H × Time)) (readers : ℕ) (moves : List Move)
    (hrun : OrderlyRun S p (writerAndReaders p w writes readers) moves)
    (hdone : (after S (writerAndReaders p w writes readers) moves).done = true) {text : Option Str}
    (hlast : (after S (writerAndReaders p w writes readers) moves).state.lastWrite = some text) :
    (after S (writerAndReaders p w writes readers) moves).state.store.localText p = text := by
  have hstart : Inv S p (w.localText p = w.primaryText S p) (writerAndReaders p w writes readers) :=
    inv_start hw _
  have hinv := hstart.after hS moves hrun
  rw [← hinv.written text hlast]
  exact hinv.settled (Or.inr (by simp [hlast])) (not_writing_of_done hdone)

/-! ### Runs that can be checked -/

def writing (x : Callers δ ι H) : Bool := x.threads.any fun
  | .call (.append _ _ _) _ => true
  | _ => false

omit [DecidableEq H] [Hashing H] [Printing] [RuneClasses] in
theorem not_writing_of_writing_eq_false {x : Callers δ ι H} (h : writing x = false) : ¬ Writing x := by
  rintro ⟨i, e, q, t, hi⟩
  obtain ⟨k, hk⟩ := Pool.next_eq_some.1 hi
  rw [writing, List.any_eq_false] at h
  exact h _ (List.mem_of_getElem? hk) rfl

/-- The atom is neither dropped nor evicted. -/
def accepts (w : World ι H) (e : Expr ι H) (p : Str) (d : Time) : Bool :=
  !w.repeats e p d && w.retains e p d && (d = zeroTime)

omit [RuneClasses] in
theorem accepts_iff {w : World ι H} {e : Expr ι H} {p : Str} {d : Time} (h : accepts w e p d = true) :
    w.Accepts exprText e p d := by
  simp only [accepts, Bool.and_eq_true, Bool.not_eq_true', decide_eq_true_eq] at h
  unfold World.Accepts
  rw [h.1.1, if_neg Bool.false_ne_true]
  exact ⟨h.1.2, .inl h.2⟩

def orderlyAlone [DecidableEq ι] (S : Sql δ ι) (p : Str) (x : Callers δ ι H) (i : ℕ) : Bool :=
  match x.next i with
  | some (.upsert e _) =>
    match PostgresStore.appendAtom S x.state.store.db e p with
    | .ok _ => isPlainText e && !writing x
    | .error msg => !tolerated msg
  | some (.append e _ t) => accepts x.state.store.cache e p t
  | some (.fill _ text) => x.state.store.primaryText S p = some text ∧
      accepts x.state.store.cache (.eConst (.vString text)) p zeroTime
  | _ => true

theorem orderly_of_alone [DecidableEq ι] {x : Callers δ ι H} {i : ℕ}
    (h : orderlyAlone S p x i = true) : Orderly S p x (.thread i) := by
  cases hnext : x.next i with
  | none => simp only [Orderly, hnext]
  | some op =>
    cases op with
    | upsert e q =>
      simp only [orderlyAlone, hnext] at h
      simp only [Orderly, hnext]
      cases hput : PostgresStore.appendAtom S x.state.store.db e p with
      | ok db =>
        rw [hput] at h
        obtain ⟨htext, hquiet⟩ := Bool.and_eq_true_iff.1 h
        refine ⟨htext, fun j e' q' t' _ hj => ?_⟩
        exact absurd ⟨j, e', q', t', hj⟩ (not_writing_of_writing_eq_false (by simpa using hquiet))
      | error msg =>
        rw [hput] at h
        simpa using h
    | append e q t =>
      simp only [orderlyAlone, hnext] at h
      simpa only [Orderly, hnext] using accepts_iff h
    | fill q text =>
      simp only [orderlyAlone, hnext] at h
      obtain ⟨hprimary, htaken⟩ := of_decide_eq_true h
      simpa only [Orderly, hnext] using Or.inl ⟨hprimary, accepts_iff htaken⟩
    | _ => simp only [Orderly, hnext]

/-- The threads of a list make their steps in turn, and no write meets another. -/
def orderlyTurns [DecidableEq ι] (S : Sql δ ι) (p : Str) : Callers δ ι H → List ℕ → Bool
  | _, [] => true
  | x, i :: is => orderlyAlone S p x i && orderlyTurns S p (x.advance (watchedStep S) i) is

theorem orderlyRun_of_turns [DecidableEq ι] : ∀ (is : List ℕ) {x : Callers δ ι H},
    orderlyTurns S p x is = true → OrderlyRun S p x (is.map .thread)
  | [], _, _ => fun before m rest h => by cases before <;> cases h
  | i :: is, x, hturns => by
    obtain ⟨hfirst, hrest⟩ := (Bool.and_eq_true _ _).mp hturns
    intro before m rest h
    cases before with
    | nil =>
      obtain ⟨rfl, -⟩ := List.cons.inj h
      exact orderly_of_alone hfirst
    | cons m' before =>
      obtain ⟨rfl, htail⟩ := List.cons.inj h
      exact orderlyRun_of_turns is hrest before m rest htail

end WriteThrough

end

section Instances

local instance tierHashing : Hashing Str := ⟨id, id, fun _ => 0⟩

local instance tierPrinting : Printing := ⟨fun _ => []⟩

local instance tierRunes : RuneClasses := ⟨fun _ => false⟩

def oneCell : Sql (Option (Value Unit)) Unit :=
  ⟨fun _ _ _ _ v => .ok v, fun db _ _ _ => db.bind valueText⟩

theorem oneCell_textPath (path : Str) : oneCell.TextPath path := by
  refine fun table id column more _ => ⟨fun db db' id s h => ?_, fun db db' id h => ?_⟩
  · obtain rfl := Except.ok.inj h
    rfl
  · obtain rfl := Except.ok.inj h
    rfl

def cellPath : Str := str "t:1:c"

def coldStore (cell : Option (Value Unit)) : WriteThrough (Option (Value Unit)) Unit Str :=
  ⟨.init 0 0, cell⟩

def putText (s : String) : Expr Unit Str × Time := (.eConst (.vString (str s)), zeroTime)

/-- Two writes reach the database in the order `a`, `b` and the cache in the order `b`, `a`. -/
theorem crossed_writes_disagree :
    (after oneCell (writers cellPath (coldStore none)
      [putText "a", putText "b"]) [.thread 0, .thread 1, .thread 1, .thread 0]).done = true ∧
    (after oneCell (writers cellPath (coldStore none)
      [putText "a", putText "b"]) [.thread 0, .thread 1, .thread 1, .thread 0]).state.store.localText
        cellPath = some (str "a") ∧
    (after oneCell (writers cellPath (coldStore none)
      [putText "a", putText "b"]) [.thread 0, .thread 1, .thread 1, .thread 0]).state.store.primaryText
        oneCell cellPath = some (str "b") := by
  refine ⟨?_, ?_, ?_⟩ <;> decide +kernel

theorem concurrent_writes_agree_in_turn :
    (after oneCell (writers cellPath (coldStore none)
      [putText "a", putText "b"]) ([0, 0, 1, 1].map .thread)).state.store.localText cellPath =
    (after oneCell (writers cellPath (coldStore none)
      [putText "a", putText "b"]) ([0, 0, 1, 1].map .thread)).state.store.primaryText oneCell cellPath :=
  concurrent_writes_agree (oneCell_textPath cellPath) (World.sound_init 0 0) _ _
    (orderlyRun_of_turns _ (by decide +kernel)) (by decide +kernel)
    (Or.inl (by decide +kernel))

/-- A read finds `old` in the database; a write of `new` passes through both stores; and then the
read fills the cache with `old`. -/
theorem late_fill_buries_write : (after oneCell (writerAndReaders cellPath
      (coldStore (some (.vString (str "old")))) [putText "new"] 1)
      [.thread 1, .thread 1, .thread 0, .thread 0, .thread 1, .thread 1]).done = true ∧
    (after oneCell (writerAndReaders cellPath
      (coldStore (some (.vString (str "old")))) [putText "new"] 1)
      [.thread 1, .thread 1, .thread 0, .thread 0, .thread 1, .thread 1]).state.lastWrite =
        some (some (str "new")) ∧ (after oneCell (writerAndReaders cellPath
      (coldStore (some (.vString (str "old")))) [putText "new"] 1)
      [.thread 1, .thread 1, .thread 0, .thread 0, .thread 1, .thread 1]).state.store.localText
        cellPath = some (str "old") := by
  refine ⟨?_, ?_, ?_⟩ <;> decide +kernel

theorem fills_keep_last_write_in_turn : (after oneCell (writerAndReaders cellPath
      (coldStore (some (.vString (str "old")))) [putText "new"] 1)
      ([1, 1, 1, 1, 0, 0].map .thread)).state.store.localText cellPath = some (str "new") :=
  fills_keep_last_write (oneCell_textPath cellPath) (World.sound_init 0 0) _ 1 _
    (orderlyRun_of_turns _ (by decide +kernel)) (by decide +kernel)
    (by decide +kernel)

end Instances

end Wavicle.Storage
