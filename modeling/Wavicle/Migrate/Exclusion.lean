import Wavicle.Migrate.LockRecord

/-! # When the report lock is exclusive

A process that holds the lock and keeps refreshing its heartbeat has its own file at `path`.

* `Inv`: what holds of the inodes and of the processes that keep the lock; `Inv.run`: careful steps keep it.
* `exclusive_of_careful`: then no two processes hold the lock, and none removes that of another.
* `both_hold_stale_lock`: two processes that judge one stale lock both take it over. -/

namespace Wavicle.Migrate

open Lib Wavicle.Core Function List

variable {f : LockFormat} {path : Str} {pid : ℕ → ℤ}

theorem Phase.inode_of_held {p : Phase} {h : Held} (hheld : p.held = some h) : p.inode = some h.inode := by
  cases p with
  | created => simp [held] at hheld
  | _ => exact congrArg (Option.map Held.inode) hheld

theorem Phase.inode_eq {p : Phase} (hcreated : ∀ now a, p ≠ .created now a) :
    p.inode = p.held.map (·.inode) := by
  cases p with
  | created now a => exact absurd rfl (hcreated now a)
  | _ => rfl

def Errand.Timely (f : LockFormat) (clock : Instant) : Errand → Prop
  | .takeover judged =>
    ∃ now prev, now.time ≤ clock.time ∧ f.unmarshal judged = some prev ∧ f.fresh now prev = false
  | .beat _ => True

/-- What a process goes by is from the clock that it read when it started. -/
def Phase.Timely (f : LockFormat) (clock : Instant) : Phase → Prop
  | .starting now | .created now _ | .reading now _ => now.time ≤ clock.time
  | .judging now judged prev => now.time ≤ clock.time ∧ f.unmarshal judged = some prev
  | .opening _ _ errand | .putting _ _ errand _ | .wrote _ _ errand => errand.Timely f clock
  | _ => True

theorem Errand.Timely.mono {errand : Errand} {clock clock' : Instant} (h : errand.Timely f clock)
    (hclock : clock.time ≤ clock'.time) : errand.Timely f clock' := by
  cases errand with
  | takeover =>
    obtain ⟨now, prev, hnow, hprev⟩ := h
    exact ⟨now, prev, hnow.trans hclock, hprev⟩
  | beat => trivial

theorem Phase.Timely.mono {p : Phase} {clock clock' : Instant} (h : p.Timely f clock)
    (hclock : clock.time ≤ clock'.time) : p.Timely f clock' := by
  cases p with
  | starting | created | reading => exact le_trans h hclock
  | judging => exact ⟨h.1.trans hclock, h.2⟩
  | opening | putting | wrote => exact Errand.Timely.mono h hclock
  | _ => trivial

theorem held_abandoned (path : Str) (errand : Errand) (err : Str) :
    (World.abandoned path errand err).held = errand.held := by
  cases errand <;> rfl

theorem abandoned_ne_created (path : Str) (errand : Errand) (err : Str) (now : Instant) (a : ℕ) :
    World.abandoned path errand err ≠ .created now a := by
  cases errand <;> exact fun heq => by cases heq

theorem timely_abandoned (path : Str) (errand : Errand) (err : Str) (clock : Instant) :
    (World.abandoned path errand err).Timely f clock := by
  cases errand <;> trivial

/-- What holds in every careful run; `keeps` are the processes that have kept their heartbeat fresh. -/
structure Inv (f : LockFormat) (pid : ℕ → ℤ) (x : World) (keeps : ℕ → Bool) : Prop where
  lock_lt : ∀ a, x.lock = some a → a < x.next
  tmp_lt : ∀ b, x.tmp = some b → b < x.next
  apart : ∀ a, x.lock = some a → x.tmp ≠ some a
  inode_lt : ∀ i a, (x.phase i).inode = some a → a < x.next
  inode_tmp : ∀ i a, (x.phase i).inode = some a → x.tmp ≠ some a
  distinct : ∀ i j a, (x.phase i).inode = some a → (x.phase j).inode = some a → i = j
  created : ∀ i now a, x.phase i = .created now a → x.lock = some a ∧ x.files a = []
  kept : ∀ i, keeps i = true → ∃ h, (x.phase i).held = some h ∧ x.lock = some h.inode ∧
    (∃ n, x.files h.inode = (f.marshal (f.record (pid i) h.started h.beatAt)).take n) ∧
    x.refreshed h = true
  timely : ∀ i, (x.phase i).Timely f x.clock

theorem Inv.exclusive {x : World} {keeps : ℕ → Bool} (h : Inv f pid x keeps) {i j : ℕ}
    (hi : keeps i = true) (hj : keeps j = true) : i = j := by
  obtain ⟨hi', hheld, hlock, -⟩ := h.kept i hi
  obtain ⟨hj', hheld', hlock', -⟩ := h.kept j hj
  have heq : hi'.inode = hj'.inode := Option.some.inj (hlock.symm.trans hlock')
  exact h.distinct i j hi'.inode (Phase.inode_of_held hheld) (heq ▸ Phase.inode_of_held hheld')

section Invariant

variable {x : World} {keeps keeps' : ℕ → Bool} {i : ℕ}

theorem Inv.tick (h : Inv f pid x keeps) {t : Instant} (ht : x.clock.time ≤ t.time)
    (hkeeps : ∀ j, keeps' j = true → keeps j = true ∧
      ∃ held, (x.phase j).held = some held ∧ World.refreshed { x with clock := t } held = true) :
    Inv f pid { x with clock := t } keeps' where
  lock_lt := h.lock_lt
  tmp_lt := h.tmp_lt
  apart := h.apart
  inode_lt := h.inode_lt
  inode_tmp := h.inode_tmp
  distinct := h.distinct
  created := h.created
  kept j hj := by
    obtain ⟨hkept, held, hh, hrefreshed⟩ := hkeeps j hj
    obtain ⟨held', hh', hl, hn, -⟩ := h.kept j hkept
    obtain rfl : held = held' := Option.some.inj (hh.symm.trans hh')
    exact ⟨held, hh, hl, hn, hrefreshed⟩
  timely j := (h.timely j).mono ht

theorem Inv.sole (h : Inv f pid x keeps) {a : ℕ} (hlock : x.lock = some a)
    (hi : (x.phase i).inode = some a) : ∀ j ≠ i, keeps j = false ∧ ∀ now b, x.phase j ≠ .created now b := by
  intro j hji
  refine ⟨Bool.eq_false_iff.2 fun hj => hji ?_, fun now b hj => hji ?_⟩
  · obtain ⟨held, hheld, hl, -⟩ := h.kept j hj
    have heq : held.inode = a := Option.some.inj (hl.symm.trans hlock)
    exact h.distinct j i a (heq ▸ Phase.inode_of_held hheld) hi
  · have heq : b = a := Option.some.inj ((h.created j now b hj).1.symm.trans hlock)
    have hinode : (x.phase j).inode = some a := by rw [hj, heq]; rfl
    exact h.distinct j i a hinode hi

theorem Inv.none_of_lock (h : Inv f pid x keeps) (hlock : x.lock = none) (j : ℕ) :
    keeps j = false ∧ ∀ now b, x.phase j ≠ .created now b := by
  refine ⟨Bool.eq_false_iff.2 fun hj => ?_, fun now b hj => ?_⟩
  · obtain ⟨_, _, hl, _⟩ := h.kept j hj
    rw [hlock] at hl
    cases hl
  · have hl := (h.created j now b hj).1
    rw [hlock] at hl
    cases hl

/-- Where the text at `path` has been judged to be stale, no process that is counted has its file there. -/
theorem Inv.none_of_judged (h : Inv f pid x keeps) (hf : f.Lawful) {judged : Str} {now : Instant}
    {prev : PidLock} (hcontent : x.content = some judged) (hnow : now.time ≤ x.clock.time)
    (hprev : f.unmarshal judged = some prev) (hstale : f.fresh now prev = false) (j : ℕ) :
    keeps j = false ∧ ∀ now b, x.phase j ≠ .created now b := by
  refine ⟨Bool.eq_false_iff.2 fun hj => ?_, fun now' b hj => ?_⟩
  · obtain ⟨held, -, hl, ⟨n, hn⟩, hrefreshed⟩ := h.kept j hj
    have hjudged : (f.marshal (f.record (pid j) held.started held.beatAt)).take n = judged := by
      rw [World.content, hl, Option.map_some, hn] at hcontent
      exact Option.some.inj hcontent
    -- a part of the record could not have been read
    have hlong : (f.marshal (f.record (pid j) held.started held.beatAt)).length ≤ n := by
      by_contra hshort
      have hnone := hf.unmarshal_take (pid j) held.started held.beatAt n (not_le.1 hshort)
      rw [hjudged, hprev] at hnone
      cases hnone
    rw [take_of_length_le hlong] at hjudged
    have hsame := hf.unmarshal_marshal (pid j) held.started held.beatAt
    rw [hjudged, hprev] at hsame
    rw [Option.some.inj hsame, LockFormat.fresh] at hstale
    simp only [LockFormat.record, hf.parse_format, decide_eq_false_iff_not, not_lt] at hstale
    have hlt := of_decide_eq_true hrefreshed
    linarith
  · obtain ⟨hl, hempty⟩ := h.created j now' b hj
    rw [World.content, hl, Option.map_some, hempty] at hcontent
    rw [← Option.some.inj hcontent, hf.unmarshal_nil] at hprev
    cases hprev

end Invariant

/-! ### Steps and runs -/

section Runs

variable {x : Watched} {action : Action} {y : World} {i : ℕ} {p : Phase}

/-- The invariant of a watched world. -/
abbrev Watched.Ok (f : LockFormat) (pid : ℕ → ℤ) (x : Watched) : Prop := Inv f pid x.world x.keeps

theorem Watched.keeps_step {j : ℕ} (hj : (x.step f path pid action).keeps j = true) :
    ∃ held, ((x.world.step f path pid action).phase j).held = some held ∧
      (x.keeps j = true ∨ (x.world.phase j).held = none) ∧
      (x.world.step f path pid action).refreshed held = true := by
  obtain ⟨held, hheld, hand⟩ := (Option.any_eq_true _ _).1 hj
  rw [Bool.and_eq_true, Bool.or_eq_true, Option.isNone_iff_eq_none] at hand
  exact ⟨held, hheld, hand.1, hand.2⟩

theorem Inv.stays (h : x.Ok f pid) (hstep : x.world.step f path pid action = x.world) :
    (x.step f path pid action).Ok f pid := by
  have hworld : (x.step f path pid action).world = x.world := hstep
  rw [Watched.Ok, hworld]
  refine { h with kept := fun j hj => h.kept j ?_ }
  obtain ⟨held, hheld, hor, -⟩ := Watched.keeps_step hj
  rw [hstep] at hheld
  refine hor.resolve_right fun hnone => ?_
  rw [hnone] at hheld
  cases hheld

theorem Watched.keeps_of_held (hstep : x.world.step f path pid action = y)
    (hphase : y.phase = update x.world.phase i p)
    (hheld : p.held = none ∨ p.held = (x.world.phase i).held) {j : ℕ}
    (hj : (x.step f path pid action).keeps j = true) : x.keeps j = true ∧ (y.phase j).held ≠ none := by
  obtain ⟨held, hsome, hor, -⟩ := Watched.keeps_step hj
  rw [hstep] at hsome
  refine ⟨hor.resolve_right fun hnone => ?_, by rw [hsome]; exact Option.some_ne_none _⟩
  rw [hphase] at hsome
  by_cases hji : j = i
  · subst hji
    rw [update_self] at hsome
    rcases hheld with heq | heq
    · rw [heq] at hsome
      cases hsome
    · rw [heq, hnone] at hsome
      cases hsome
  · rw [update_of_ne hji, hnone] at hsome
    cases hsome

/-- A process that goes on, and does not come to hold the lock, where the file at `path` stays as it is: all
other operations are on the temporary file. -/
theorem Inv.step_aside (h : x.Ok f pid) (hstep : x.world.step f path pid action = y)
    (hphase : y.phase = update x.world.phase i p) (hclock : y.clock = x.world.clock)
    (hlock : y.lock = x.world.lock) (hfiles : ∀ a, x.world.lock = some a → y.files a = x.world.files a)
    (hnext : x.world.next ≤ y.next)
    (htmp : ∀ b, y.tmp = some b → x.world.tmp = some b ∨ b = x.world.next ∧ x.world.next < y.next)
    (hheld : p.held = none ∨ p.held = (x.world.phase i).held) (hcreated : ∀ now a, p ≠ .created now a)
    (htimely : p.Timely f x.world.clock) : (x.step f path pid action).Ok f pid := by
  have hkeeps := fun j => Watched.keeps_of_held (j := j) hstep hphase hheld
  have hworld : (x.step f path pid action).world = y := hstep
  rw [Watched.Ok, hworld]
  -- a file that is a process's afterwards was so before
  have hinode : ∀ j a, (y.phase j).inode = some a → (x.world.phase j).inode = some a := by
    intro j a hj
    rw [hphase] at hj
    by_cases hji : j = i
    · subst hji
      rw [update_self, Phase.inode_eq hcreated] at hj
      rcases hheld with hnone | hsame
      · rw [hnone] at hj
        cases hj
      · obtain ⟨held, hsome, rfl⟩ := Option.map_eq_some_iff.1 hj
        exact Phase.inode_of_held (hsame.symm.trans hsome)
    · rwa [update_of_ne hji] at hj
  have hsame : ∀ j, (y.phase j).held ≠ none → (y.phase j).held = (x.world.phase j).held := by
    intro j hj
    rw [hphase] at hj ⊢
    by_cases hji : j = i
    · subst hji
      rw [update_self] at hj ⊢
      exact hheld.resolve_left hj
    · rw [update_of_ne hji]
  have hnew : ∀ a, a < x.world.next → x.world.tmp ≠ some a → y.tmp ≠ some a := by
    intro a ha hne hb
    rcases htmp a hb with hb | ⟨rfl, -⟩
    · exact hne hb
    · exact lt_irrefl _ ha
  refine ⟨?_, ?_, ?_, ?_, ?_, ?_, ?_, ?_, ?_⟩
  · intro a ha
    exact (h.lock_lt a (hlock ▸ ha)).trans_le hnext
  · intro b hb
    rcases htmp b hb with hb | ⟨rfl, hlt⟩
    · exact (h.tmp_lt b hb).trans_le hnext
    · exact hlt
  · intro a ha
    rw [hlock] at ha
    exact hnew a (h.lock_lt a ha) (h.apart a ha)
  · intro j a hj
    exact (h.inode_lt j a (hinode j a hj)).trans_le hnext
  · intro j a hj
    exact hnew a (h.inode_lt j a (hinode j a hj)) (h.inode_tmp j a (hinode j a hj))
  · intro j k a hj hk
    exact h.distinct j k a (hinode j a hj) (hinode k a hk)
  · intro j now a hj
    rw [hphase] at hj
    by_cases hji : j = i
    · subst hji
      rw [update_self] at hj
      exact absurd hj (hcreated now a)
    · rw [update_of_ne hji] at hj
      obtain ⟨hl, hempty⟩ := h.created j now a hj
      exact ⟨hlock.trans hl, (hfiles a hl).trans hempty⟩
  · intro j hj
    obtain ⟨hkept, hsome⟩ := hkeeps j hj
    obtain ⟨held, hh, hl, ⟨n, hn⟩, hrefreshed⟩ := h.kept j hkept
    refine ⟨held, (hsame j hsome).trans hh, hlock.trans hl, ⟨n, (hfiles _ hl).trans hn⟩, ?_⟩
    rw [World.refreshed, hclock]
    exact hrefreshed
  · intro j
    rw [hphase, hclock]
    by_cases hji : j = i
    · subst hji
      rwa [update_self]
    · rw [update_of_ne hji]
      exact h.timely j

theorem Inv.step_move (h : x.Ok f pid) (hstep : x.world.step f path pid action = x.world.move i p)
    (hheld : p.held = none ∨ p.held = (x.world.phase i).held) (hcreated : ∀ now a, p ≠ .created now a)
    (htimely : p.Timely f x.world.clock) : (x.step f path pid action).Ok f pid :=
  h.step_aside hstep rfl rfl rfl (fun _ _ => rfl) le_rfl (fun _ hb => Or.inl hb) hheld hcreated htimely

theorem Inv.step_abandon (h : x.Ok f pid) {errand : Errand} {err : Str}
    (hstep : x.world.step f path pid action = x.world.move i (World.abandoned path errand err))
    (hheld : (x.world.phase i).held = errand.held) : (x.step f path pid action).Ok f pid :=
  h.step_move hstep (Or.inr ((held_abandoned path errand err).trans hheld.symm))
    (abandoned_ne_created path errand err) (timely_abandoned path errand err _)

theorem Inv.step_place (h : x.Ok f pid) (hstep : x.world.step f path pid action = y)
    (hothers : ∀ j ≠ i, x.keeps j = false ∧ ∀ now b, x.world.phase j ≠ .created now b)
    (hphase : y.phase = update x.world.phase i p) (hclock : y.clock = x.world.clock)
    (hnext : x.world.next ≤ y.next) (htmp : ∀ b, y.tmp = some b → x.world.tmp = some b)
    (hlock : ∀ a, y.lock = some a → a < y.next ∧ y.tmp ≠ some a) (hinode : ∀ a, p.inode = some a →
      a < y.next ∧ y.tmp ≠ some a ∧ ∀ j ≠ i, (x.world.phase j).inode ≠ some a)
    (hcreated : ∀ now a, p = .created now a → y.lock = some a ∧ y.files a = [])
    (hkept : ∀ held, p.held = some held → y.lock = some held.inode ∧
      ∃ n, y.files held.inode = (f.marshal (f.record (pid i) held.started held.beatAt)).take n)
    (htimely : p.Timely f x.world.clock) : (x.step f path pid action).Ok f pid := by
  have hself : y.phase i = p := by rw [hphase, update_self]
  have hother : ∀ j ≠ i, y.phase j = x.world.phase j := by
    intro j hji
    rw [hphase, update_of_ne hji]
  have hworld : (x.step f path pid action).world = y := hstep
  rw [Watched.Ok, hworld]
  refine ⟨fun a ha => (hlock a ha).1, fun b hb => (h.tmp_lt b (htmp b hb)).trans_le hnext,
    fun a ha => (hlock a ha).2, ?_, ?_, ?_, ?_, ?_, ?_⟩
  · intro j a hj
    by_cases hji : j = i
    · rw [hji, hself] at hj
      exact (hinode a hj).1
    · rw [hother j hji] at hj
      exact (h.inode_lt j a hj).trans_le hnext
  · intro j a hj hb
    by_cases hji : j = i
    · rw [hji, hself] at hj
      exact (hinode a hj).2.1 hb
    · rw [hother j hji] at hj
      exact h.inode_tmp j a hj (htmp a hb)
  · intro j k a hj hk
    by_cases hji : j = i
    · by_cases hki : k = i
      · rw [hji, hki]
      · rw [hji, hself] at hj
        rw [hother k hki] at hk
        exact absurd hk ((hinode a hj).2.2 k hki)
    · rw [hother j hji] at hj
      by_cases hki : k = i
      · rw [hki, hself] at hk
        exact absurd hj ((hinode a hk).2.2 j hji)
      · rw [hother k hki] at hk
        exact h.distinct j k a hj hk
  · intro j now a hj
    by_cases hji : j = i
    · rw [hji, hself] at hj
      exact hcreated now a hj
    · rw [hother j hji] at hj
      exact absurd hj ((hothers j hji).2 now a)
  · intro j hj
    obtain ⟨held, hheld, hor, hrefreshed⟩ := Watched.keeps_step hj
    rw [hstep] at hheld hrefreshed
    by_cases hji : j = i
    · subst hji
      rw [hself] at hheld ⊢
      obtain ⟨hl, hn⟩ := hkept held hheld
      exact ⟨held, hheld, hl, hn, hrefreshed⟩
    · rw [hother j hji] at hheld
      rcases hor with hkeeps | hnone
      · rw [(hothers j hji).1] at hkeeps
        cases hkeeps
      · rw [hnone] at hheld
        cases hheld
  · intro j
    rw [hclock]
    by_cases hji : j = i
    · rwa [hji, hself]
    · rw [hother j hji]
      exact h.timely j

theorem Inv.step_create (h : x.Ok f pid) (i : ℕ) (fault : Bool) :
    (x.step f path pid (.create i fault)).Ok f pid := by
  cases hp : x.world.phase i with
  | starting now =>
    have hnow : now.time ≤ x.world.clock.time := by
      have htimely := h.timely i
      rwa [hp] at htimely
    by_cases hfree : x.world.lock = none ∧ fault = false
    · have hstep : x.world.step f path pid (.create i fault) =
          { x.world with
            lock := some x.world.next
            files := update x.world.files x.world.next []
            next := x.world.next + 1
            phase := update x.world.phase i (.created now x.world.next) } := by
        simp only [World.step, hp, if_pos hfree]
      refine h.step_place hstep (fun j _ => h.none_of_lock hfree.1 j) rfl rfl
        (Nat.le_succ _) (fun b hb => hb) ?_ ?_ ?_ (fun held hheld => by cases hheld) hnow
      · rintro a ⟨⟩
        exact ⟨Nat.lt_succ_self _, fun hb => lt_irrefl _ (h.tmp_lt _ hb)⟩
      · rintro a ⟨⟩
        exact ⟨Nat.lt_succ_self _, fun hb => lt_irrefl _ (h.tmp_lt _ hb),
          fun j _ hj => lt_irrefl _ (h.inode_lt j _ hj)⟩
      · rintro now' a ⟨⟩
        exact ⟨rfl, update_self ..⟩
    · exact h.step_move (i := i) (p := .reading now 0) (by simp only [World.step, hp, if_neg hfree])
        (Or.inl rfl) (fun _ _ heq => by cases heq) hnow
  | _ => exact h.stays (by simp only [World.step, hp])

theorem Inv.step_write (h : x.Ok f pid) (i : ℕ) (short : Option ℕ) :
    (x.step f path pid (.write i short)).Ok f pid := by
  cases hp : x.world.phase i with
  | created now a =>
    obtain ⟨hlock, hempty⟩ := h.created i now a hp
    have hinode : (x.world.phase i).inode = some a := by rw [hp]; rfl
    let own := f.marshal (f.record (pid i) now now)
    have hstep : x.world.step f path pid (.write i short) =
        { x.world with
          files := update x.world.files a
            (overwritten (x.world.files a) (own.take (short.getD own.length)))
          phase := update x.world.phase i (.holding ⟨a, now, now⟩) } := by
      simp only [World.step, hp, own]
    refine h.step_place hstep (h.sole hlock hinode) rfl rfl le_rfl (fun b hb => hb) ?_ ?_
      (fun _ _ heq => by cases heq) ?_ trivial
    · exact fun b hb => ⟨h.lock_lt b hb, h.apart b hb⟩
    · rintro b ⟨⟩
      exact ⟨h.inode_lt i a hinode, h.inode_tmp i a hinode,
        fun j hji hj => hji (h.distinct j i a hj hinode)⟩
    · rintro held ⟨⟩
      refine ⟨hlock, short.getD own.length, ?_⟩
      refine (update_self ..).trans ?_
      rw [hempty, overwritten, drop_nil, append_nil]
  | _ => exact h.stays (by simp only [World.step, hp])

theorem Inv.step_read (h : x.Ok f pid) (i : ℕ) (fault : Bool) :
    (x.step f path pid (.read i fault)).Ok f pid := by
  cases hp : x.world.phase i with
  | reading now tries =>
    have hnow : now.time ≤ x.world.clock.time := by
      have htimely := h.timely i
      rwa [hp] at htimely
    cases hread : (if fault then none else x.world.content.bind fun b => (f.unmarshal b).map (b, ·)) with
    | some found =>
      obtain ⟨judged, prev⟩ := found
      have hprev : f.unmarshal judged = some prev := by
        split_ifs at hread
        obtain ⟨b, -, hb⟩ := Option.bind_eq_some_iff.1 hread
        obtain ⟨l, hl, heq⟩ := Option.map_eq_some_iff.1 hb
        obtain ⟨rfl, rfl⟩ := Prod.mk.inj heq
        exact hl
      exact h.step_move (i := i) (p := .judging now judged prev) (by simp only [World.step, hp, hread])
        (Or.inl rfl) (fun _ _ heq => by cases heq) ⟨hnow, hprev⟩
    | none =>
      by_cases htries : tries + 1 < 6
      · exact h.step_move (i := i) (p := .reading now (tries + 1))
          (by simp only [World.step, hp, hread, if_pos htries]) (Or.inl rfl)
          (fun _ _ heq => by cases heq) hnow
      · exact h.step_move (i := i) (p := .failed _)
          (by simp only [World.step, hp, hread, if_neg htries]; rfl) (Or.inl rfl)
          (fun _ _ heq => by cases heq) trivial
  | _ => exact h.stays (by simp only [World.step, hp])

theorem Inv.step_judge (h : x.Ok f pid) (i : ℕ) (signal : Bool) :
    (x.step f path pid (.judge i signal)).Ok f pid := by
  cases hp : x.world.phase i with
  | judging now judged prev =>
    have htimely := h.timely i
    rw [hp] at htimely
    by_cases hrefuse : (f.fresh now prev || pidAlive signal prev.pid) = true
    · exact h.step_move (i := i) (p := .failed _) (by simp only [World.step, hp, if_pos hrefuse]; rfl)
        (Or.inl rfl) (fun _ _ heq => by cases heq) trivial
    · have hstale : f.fresh now prev = false := by
        rw [Bool.or_eq_true, not_or] at hrefuse
        exact Bool.eq_false_iff.2 hrefuse.1
      exact h.step_move (i := i) (p := .opening now now (.takeover judged))
        (by simp only [World.step, hp, if_neg hrefuse]) (Or.inl rfl) (fun _ _ heq => by cases heq)
        ⟨now, prev, htimely.1, htimely.2, hstale⟩
  | _ => exact h.stays (by simp only [World.step, hp])

theorem Inv.step_open (h : x.Ok f pid) (i : ℕ) (fault : Option Str) :
    (x.step f path pid (.openTmp i fault)).Ok f pid := by
  cases hp : x.world.phase i with
  | opening started heartbeat errand =>
    have htimely := h.timely i
    rw [hp] at htimely
    have hheld : errand.held = (x.world.phase i).held := by rw [hp]; rfl
    cases fault with
    | some err => exact h.step_abandon (i := i) (by simp only [World.step, hp]; rfl) hheld.symm
    | none =>
      cases htmp : x.world.tmp with
      | some b =>
        have hstep : x.world.step f path pid (.openTmp i none) =
            { x.world with
              files := update x.world.files b []
              phase := update x.world.phase i (.putting started heartbeat errand b) } := by
          simp only [World.step, hp, htmp]
        refine h.step_aside hstep rfl rfl rfl (fun a ha => ?_) le_rfl (fun _ hb => Or.inl hb)
          (Or.inr hheld) (fun _ _ heq => by cases heq) htimely
        have hne : a ≠ b := by
          rintro rfl
          exact h.apart a ha htmp
        exact update_of_ne hne ..
      | none =>
        have hstep : x.world.step f path pid (.openTmp i none) =
            { x.world with
              tmp := some x.world.next
              files := update x.world.files x.world.next []
              next := x.world.next + 1
              phase := update x.world.phase i
                (.putting started heartbeat errand x.world.next) } := by
          simp only [World.step, hp, htmp]
        refine h.step_aside hstep rfl rfl rfl (fun a ha => ?_) (Nat.le_succ _)
          (fun b hb => Or.inr ⟨(Option.some.inj hb).symm, Nat.lt_succ_self _⟩)
          (Or.inr hheld) (fun _ _ heq => by cases heq) htimely
        exact update_of_ne (h.lock_lt a ha).ne ..
  | _ => exact h.stays (by simp only [World.step, hp])

theorem Inv.step_put (h : x.Ok f pid) (i : ℕ) (short : Option (ℕ × Str))
    (hcareful : x.world.Careful f pid (.put i short)) : (x.step f path pid (.put i short)).Ok f pid := by
  cases hp : x.world.phase i with
  | putting started heartbeat errand b =>
    have htimely := h.timely i
    rw [hp] at htimely
    have hheld : errand.held = (x.world.phase i).held := by rw [hp]; rfl
    have hlock : ∀ a, x.world.lock = some a → a ≠ b := by
      rintro a ha rfl
      exact hcareful started heartbeat errand a hp ha
    let own := f.marshal (f.record (pid i) started heartbeat)
    cases short with
    | some cut =>
      have hstep : x.world.step f path pid (.put i (some cut)) =
          { x.world with
            files := update x.world.files b (overwritten (x.world.files b) (own.take cut.1))
            phase := update x.world.phase i (World.abandoned path errand cut.2) } := by
        simp only [World.step, hp, own]
      exact h.step_aside hstep rfl rfl rfl (fun a ha => update_of_ne (hlock a ha) ..) le_rfl
        (fun _ hb => Or.inl hb) (Or.inr ((held_abandoned path errand cut.2).trans hheld))
        (abandoned_ne_created path errand cut.2) (timely_abandoned path errand cut.2 _)
    | none =>
      have hstep : x.world.step f path pid (.put i none) =
          { x.world with
            files := update x.world.files b (overwritten (x.world.files b) own)
            phase := update x.world.phase i (.wrote started heartbeat errand) } := by
        simp only [World.step, hp, own]
      exact h.step_aside hstep rfl rfl rfl (fun a ha => update_of_ne (hlock a ha) ..) le_rfl
        (fun _ hb => Or.inl hb) (Or.inr hheld) (fun _ _ heq => by cases heq) htimely
  | _ => exact h.stays (by simp only [World.step, hp])

theorem Inv.step_rename (h : x.Ok f pid) (hf : f.Lawful) (i : ℕ) (fault : Option Str)
    (hcareful : x.world.Careful f pid (.rename i fault)) :
    (x.step f path pid (.rename i fault)).Ok f pid := by
  cases hp : x.world.phase i with
  | wrote started heartbeat errand =>
    have hheld : errand.held = (x.world.phase i).held := by rw [hp]; rfl
    cases fault with
    | some err => exact h.step_abandon (i := i) (by simp only [World.step, hp]; rfl) hheld.symm
    | none =>
      cases htmp : x.world.tmp with
      | none => exact h.step_abandon (i := i) (by simp only [World.step, hp, htmp]; rfl) hheld.symm
      | some b =>
        obtain ⟨hfile, hfree⟩ := hcareful rfl started heartbeat errand b hp htmp
        have hstep : x.world.step f path pid (.rename i none) =
            { x.world with
              lock := some b
              tmp := none
              phase := update x.world.phase i (.holding ⟨b, started, heartbeat⟩) } := by
          simp only [World.step, hp, htmp]
        have hothers : ∀ j ≠ i, x.keeps j = false ∧ ∀ now b, x.world.phase j ≠ .created now b := by
          cases errand with
          | takeover judged =>
            have htimely := h.timely i
            rw [hp] at htimely
            obtain ⟨now, prev, hnow, hprev, hstale⟩ := htimely
            exact fun j _ => h.none_of_judged hf hfree hnow hprev hstale j
          | beat held => exact h.sole hfree (Phase.inode_of_held hheld.symm)
        refine h.step_place hstep hothers rfl rfl le_rfl (fun _ hb => by cases hb) ?_ ?_
          (fun _ _ heq => by cases heq) ?_ trivial
        · rintro a ⟨⟩
          exact ⟨h.tmp_lt b htmp, fun hb => by cases hb⟩
        · rintro a ⟨⟩
          exact ⟨h.tmp_lt b htmp, fun hb => (by cases hb), fun j _ hj => h.inode_tmp j b hj htmp⟩
        · rintro held ⟨⟩
          exact ⟨rfl, _, hfile.trans (take_length ..).symm⟩
  | _ => exact h.stays (by simp only [World.step, hp])

theorem Inv.step_release (h : x.Ok f pid) (i : ℕ) (fault : Bool)
    (hcareful : x.world.Careful f pid (.release i fault)) :
    (x.step f path pid (.release i fault)).Ok f pid := by
  cases hp : x.world.phase i with
  | holding held =>
    have hstep : x.world.step f path pid (.release i fault) =
        { x.world with
          lock := if fault then x.world.lock else none
          phase := update x.world.phase i .gone } := by
      simp only [World.step, hp]
    have hothers : ∀ j ≠ i, x.keeps j = false ∧ ∀ now b, x.world.phase j ≠ .created now b := by
      rcases hcareful held hp with hnone | hown
      · exact fun j _ => h.none_of_lock hnone j
      · exact h.sole hown (by rw [hp]; rfl)
    refine h.step_place hstep hothers rfl rfl le_rfl (fun b hb => hb) ?_ (fun _ ha => by cases ha)
      (fun _ _ heq => by cases heq) (fun _ hheld => by cases hheld) trivial
    intro a ha
    dsimp only at ha
    split_ifs at ha
    exact ⟨h.lock_lt a ha, h.apart a ha⟩
  | _ => exact h.stays (by simp only [World.step, hp])

theorem Inv.step (h : x.Ok f pid) (hf : f.Lawful) (hcareful : x.world.Careful f pid action) :
    (x.step f path pid action).Ok f pid := by
  cases action with
  | clock t =>
    refine h.tick hcareful fun j hj => ?_
    obtain ⟨held, hheld, hor, hrefreshed⟩ := Watched.keeps_step hj
    have hsome : (x.world.phase j).held = some held := hheld
    refine ⟨hor.resolve_right fun hnone => ?_, held, hsome, hrefreshed⟩
    rw [hnone] at hsome
    cases hsome
  | start i =>
    cases hp : x.world.phase i with
    | idle =>
      exact h.step_move (i := i) (p := .starting x.world.clock) (by simp only [World.step, hp])
        (Or.inl rfl) (fun _ _ heq => by cases heq) le_rfl
    | _ => exact h.stays (by simp only [World.step, hp])
  | create i fault => exact h.step_create i fault
  | write i short => exact h.step_write i short
  | read i fault => exact h.step_read i fault
  | judge i signal => exact h.step_judge i signal
  | openTmp i fault => exact h.step_open i fault
  | put i short => exact h.step_put i short hcareful
  | rename i fault => exact h.step_rename hf i fault hcareful
  | beat i =>
    cases hp : x.world.phase i with
    | holding held =>
      exact h.step_move (i := i) (p := .opening held.started x.world.clock (.beat held))
        (by simp only [World.step, hp]) (Or.inr (by rw [hp]; rfl)) (fun _ _ heq => by cases heq) trivial
    | _ => exact h.stays (by simp only [World.step, hp])
  | release i fault => exact h.step_release i fault hcareful
  | die i => exact h.step_move (i := i) (p := .gone) rfl (Or.inl rfl) (fun _ _ heq => by cases heq) trivial

def Watched.found (now : Instant) (lock tmp : Option Str) : Watched := ⟨.found now lock tmp, fun _ => false⟩

theorem inv_found (f : LockFormat) (pid : ℕ → ℤ) (now : Instant) (lock tmp : Option Str) :
    (Watched.found now lock tmp).Ok f pid := by
  have hlock : ∀ a, (World.found now lock tmp).lock = some a → a = 0 := by
    intro a ha
    obtain ⟨-, -, rfl⟩ := Option.map_eq_some_iff.1 ha
    rfl
  have htmp : ∀ b, (World.found now lock tmp).tmp = some b → b = 1 := by
    intro b hb
    obtain ⟨-, -, rfl⟩ := Option.map_eq_some_iff.1 hb
    rfl
  refine ⟨?_, ?_, ?_, ?_, ?_, ?_, ?_, ?_, fun _ => trivial⟩
  · intro a ha
    rw [hlock a ha]
    exact Nat.zero_lt_two
  · intro b hb
    rw [htmp b hb]
    exact Nat.one_lt_two
  · intro a ha hb
    have := hlock a ha
    have := htmp a hb
    omega
  · intro i a ha
    cases ha
  · intro i a ha
    cases ha
  · intro i j a ha
    cases ha
  · intro i now a ha
    cases ha
  · intro i hi
    cases hi

theorem Inv.run {actions : List Action} (h : x.Ok f pid) (hf : f.Lawful)
    (hcareful : x.world.CarefulRun f path pid actions) : (x.run f path pid actions).Ok f pid := by
  induction actions generalizing x with
  | nil => exact h
  | cons action actions ih => exact ih (h.step hf hcareful.1) hcareful.2

theorem World.carefulRun_append {x : Watched} {before after : List Action}
    (h : x.world.CarefulRun f path pid (before ++ after)) : x.world.CarefulRun f path pid before ∧
      (x.run f path pid before).world.CarefulRun f path pid after := by
  induction before generalizing x with
  | nil => exact ⟨trivial, h⟩
  | cons action before ih =>
    obtain ⟨hbefore, hafter⟩ := ih (x := x.step f path pid action) h.2
    exact ⟨⟨h.1, hbefore⟩, hafter⟩

theorem Inv.releasesOwn (h : x.Ok f pid) (hcareful : x.world.Careful f pid action) :
    x.world.ReleasesOwn (x.world.step f path pid action) action := by
  rintro i fault rfl j hji held hheld hlock
  cases hp : x.world.phase i with
  | holding own =>
    rcases hcareful own hp with hnone | hown
    · rw [hnone] at hlock
      cases hlock
    · have heq : own.inode = held.inode := Option.some.inj (hown.symm.trans hlock)
      have hi : (x.world.phase i).inode = some held.inode := by rw [hp, ← heq]; rfl
      exact absurd (h.distinct j i _ (Phase.inode_of_held hheld) hi) hji
  | _ =>
    simp only [World.step, hp]
    exact hlock

end Runs

/-- **The report lock is exclusive** in every run of careful steps, whatever was found in the directory: no two
processes hold it while both keep refreshing their heartbeat within the bound, and no release removes the lock
of another process. -/
theorem exclusive_of_careful (hf : f.Lawful) (now : Instant) (lock tmp : Option Str) (actions : List Action)
    (hcareful : (World.found now lock tmp).CarefulRun f path pid actions) :
    ((Watched.found now lock tmp).run f path pid actions).Exclusive ∧
      ∀ before action after, actions = before ++ action :: after →
        ((Watched.found now lock tmp).run f path pid before).world.ReleasesOwn
          ((Watched.found now lock tmp).run f path pid (before ++ [action])).world action := by
  have hfound := inv_found f pid now lock tmp
  constructor
  · intro i j hi hj
    exact (hfound.run hf hcareful).exclusive hi hj
  · rintro before action after rfl
    obtain ⟨hbefore, hafter⟩ := World.carefulRun_append (x := Watched.found now lock tmp) hcareful
    rw [Watched.run, Watched.run, foldl_append]
    exact (hfound.run hf hbefore).releasesOwn hafter.1

section Instances

def fiveMinutes : Instant := ⟨300 * second, by decide, by decide⟩

/-- The record of a process that started in 1970 and beat no more. -/
def staleLock : Str := lockJson.marshal ⟨99, lockJson.format 0, lockJson.format 0⟩

example : staleLock = str
    "\x7b\"pid\":99,\"started_at\":\"1970-01-01T00:00:00Z\",\"heartbeat\":\"1970-01-01T00:00:00Z\"\x7d" := by
  decide +kernel

/-- Two processes judge the lock to be stale before either takes it over. -/
def bothJudge : List Action :=
  [.start 0, .start 1, .create 0 false, .create 1 false, .read 0 false, .read 1 false, .judge 0 false,
    .judge 1 false, .openTmp 0 none, .put 0 none, .rename 0 none, .openTmp 1 none, .put 1 none, .rename 1 none]

def pidOf (i : ℕ) : ℤ := i + 1

def bothTaken : Watched :=
  (Watched.found fiveMinutes (some staleLock) none).run lockJson (str "lock") pidOf bothJudge

/-- Both hold the lock at the time of their heartbeats, and the release of the first one removes the file of
the second one. -/
theorem both_hold_stale_lock : bothTaken.world.phase 0 = .holding ⟨2, fiveMinutes, fiveMinutes⟩ ∧
      bothTaken.world.phase 1 = .holding ⟨3, fiveMinutes, fiveMinutes⟩ ∧ ¬ bothTaken.Exclusive ∧
      ¬ bothTaken.world.ReleasesOwn
        (bothTaken.world.step lockJson (str "lock") pidOf (.release 0 false)) (.release 0 false) := by
  have hsecond : bothTaken.world.phase 1 = .holding ⟨3, fiveMinutes, fiveMinutes⟩ := by decide +kernel
  refine ⟨by decide +kernel, hsecond, fun hexclusive => ?_, fun hreleases => ?_⟩
  · exact absurd (hexclusive 0 1 (by decide +kernel) (by decide +kernel)) Nat.zero_ne_one
  · have hlock := hreleases 0 false rfl 1 Nat.one_ne_zero _ (by rw [hsecond]; rfl) (by decide +kernel)
    have hgone : (bothTaken.world.step lockJson (str "lock") pidOf (.release 0 false)).lock = none := by
      decide +kernel
    rw [hgone] at hlock
    cases hlock

/-- One process takes the lock over, and another one refuses to start. -/
def oneTakes : List Action :=
  [.start 0, .create 0 false, .read 0 false, .judge 0 false, .openTmp 0 none, .put 0 none, .rename 0 none,
    .start 1, .create 1 false, .read 1 false, .judge 1 false, .release 0 false]

theorem exclusive_of_careful_one_takes :
    ((Watched.found fiveMinutes (some staleLock) none).run lockJson (str "lock") pidOf oneTakes).Exclusive := by
  refine (exclusive_of_careful lockJson_lawful fiveMinutes (some staleLock) none oneTakes
    ⟨trivial, trivial, trivial, trivial, trivial, ?_, ?_, trivial, trivial, trivial, trivial, ?_, trivial⟩).1
  · intro started heartbeat errand b hp
    obtain ⟨-, -, -, rfl⟩ := Phase.putting.inj (hp.symm.trans
      (by decide +kernel : World.phase _ 0 = .putting fiveMinutes fiveMinutes (.takeover staleLock) 2))
    decide +kernel
  · intro _ started heartbeat errand b hp hb
    obtain ⟨rfl, rfl, rfl⟩ := Phase.wrote.inj (hp.symm.trans
      (by decide +kernel : World.phase _ 0 = .wrote fiveMinutes fiveMinutes (.takeover staleLock)))
    obtain rfl := Option.some.inj (hb.symm.trans (by decide +kernel : World.tmp _ = some 2))
    exact ⟨by decide +kernel, by decide +kernel⟩
  · intro held hp
    obtain rfl := Phase.holding.inj (hp.symm.trans
      (by decide +kernel : World.phase _ 0 = .holding ⟨2, fiveMinutes, fiveMinutes⟩))
    exact Or.inr (by decide +kernel)

end Instances

end Wavicle.Migrate
