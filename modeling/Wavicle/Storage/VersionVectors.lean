import Wavicle.Storage.ReadYourWrite

/-! # Version vectors

A version vector has the hashes that some atoms had when it was captured.

* `verifyVersionVector_iff`, `mem_findChangedPaths_iff`: what the two checks compare.
* `checksExactly_iff`: a vector is valid while nothing has changed, if and only if deadlines are told apart. -/

namespace Wavicle.Storage

open Lib Wavicle.Core ShardedFrontierCache List

namespace World

variable {ι H : Type} [DecidableEq H] [Hashing H]

/-! ### Runs as lists of actions -/

/-- A call, time, or a sweep. -/
inductive Act (ι H : Type) where
  | call (c : StoreCall ι H)
  | wait (nanoseconds : ℕ)
  | sweep

def act (w : World ι H) : Act ι H → World ι H
  | .call c => (w.call c).2
  | .wait nanoseconds => { w with now := w.now + nanoseconds }
  | .sweep => { w with cache := w.cache.sweepExpired w.now }

def after (w : World ι H) (acts : List (Act ι H)) : World ι H := acts.foldl act w

@[simp] theorem after_nil (w : World ι H) : w.after [] = w := rfl

@[simp] theorem after_cons (w : World ι H) (a : Act ι H) (acts : List (Act ι H)) :
    w.after (a :: acts) = (w.act a).after acts := rfl

/-- The action appends `e` to `p`, with the deadline `t`. -/
def Act.Writes (p : Str) (e : Expr ι H) (t : Time) (a : Act ι H) : Prop :=
  ∃ via parents, a = .call ⟨via, .appendAtom e p parents t⟩

theorem step_act (w : World ι H) (a : Act ι H) : Step w (w.act a) := by
  cases a with
  | call c => exact .call c
  | wait n => exact .tick _ (by simp)
  | sweep => exact .sweep

variable {w : World ι H} {p : Str} {r : CausalAtom ι H}

theorem Inv.act (hw : w.Inv) (a : Act ι H) : (w.act a).Inv := hw.step (w.step_act a)

theorem log_act (w : World ι H) (a : Act ι H) : w.log <:+ (w.act a).log := by
  match a with
  | .call ⟨_, .appendAtom _ _ _ _⟩ => exact suffix_cons _ _
  | .call ⟨_, .getCurrent _⟩ => exact suffix_rfl
  | .call ⟨_, .getAtom _⟩ => exact suffix_rfl
  | .call ⟨_, .frontierPaths⟩ => exact suffix_rfl
  | .call ⟨_, .verifyVersionVector _⟩ => exact suffix_rfl
  | .call ⟨_, .getCurrentHash _⟩ => exact suffix_rfl
  | .call ⟨_, .findChangedPaths _⟩ => exact suffix_rfl
  | .wait _ => exact suffix_rfl
  | .sweep => exact suffix_rfl

variable (acts : List (Act ι H))

theorem log_after : ∀ w : World ι H, w.log <:+ (w.after acts).log := by
  induction acts with
  | nil => exact fun w => suffix_rfl
  | cons a acts ih => exact fun w => (w.log_act a).trans (ih (w.act a))

theorem Inv.after : ∀ {w : World ι H}, w.Inv → (w.after acts).Inv := by
  induction acts with
  | nil => exact fun hw => hw
  | cons a acts ih => exact fun hw => ih (hw.act a)

omit [DecidableEq H] [Hashing H] in
theorem nodup_of_suffix {l l' : List (CausalAtom ι H)} (h : l <:+ l')
    (hd : (l'.map (·.hash)).Nodup) : (l.map (·.hash)).Nodup :=
  hd.sublist (h.sublist.map _)

/-! ### What an action does to the atom of a path -/

theorem resident_append_cases (w : World ι H) (e : Expr ι H) (q : Str) (t : Time) (p : Str) :
    (w.append e q t).2.cache.resident p = (w.cache.inserted w.now e q t).resident p ∨
      (w.append e q t).2.cache.resident p = none :=
  (shrinks_appendAtom w.cache w.now e q t).resident p

theorem resident_act_of_not_writes (w : World ι H) {a : Act ι H} (h : ∀ e t, ¬ a.Writes p e t) :
    (w.act a).cache.resident p = w.cache.resident p ∨ (w.act a).cache.resident p = none := by
  match a with
  | .call ⟨via, .appendAtom e q parents t⟩ =>
    have hne : p ≠ q := by
      rintro rfl
      exact h e t ⟨via, parents, rfl⟩
    refine (w.resident_append_cases e q t p).imp_left fun heq => heq.trans ?_
    rcases insertAtom_spec { w.cache with clock := w.cache.clock + 1 }
      (w.mint e q t) with ⟨-, hput, -⟩ | ⟨-, hsame, -⟩
    · have hres := congrFun hput.resident p
      rw [Function.update_of_ne (show p ≠ (w.mint e q t).path from hne)] at hres
      exact hres
    · exact congrFun hsame.resident p
  | .call ⟨_, .getCurrent q⟩ =>
    exact Or.inl (congrFun (w.cache.same_getCurrent w.now q).resident p)
  | .call ⟨_, .getAtom _⟩ => exact Or.inl rfl
  | .call ⟨_, .frontierPaths⟩ => exact Or.inl rfl
  | .call ⟨_, .verifyVersionVector _⟩ => exact Or.inl rfl
  | .call ⟨_, .getCurrentHash _⟩ => exact Or.inl rfl
  | .call ⟨_, .findChangedPaths _⟩ => exact Or.inl rfl
  | .wait _ => exact Or.inl rfl
  | .sweep => exact (w.cache.shrinks_sweepExpired w.now).resident p

theorem Inv.resident_write (hw : w.Inv) (hr : w.cache.resident p = some r) {a : Act ι H}
    {e : Expr ι H} {t : Time} (ha : a.Writes p e t) (hd : ((w.act a).log.map (·.hash)).Nodup) :
    ((w.act a).cache.resident p = some (if sameAtomContent r (w.mint e p t) then r
      else w.mint e p t)) ∨ (w.act a).cache.resident p = none := by
  obtain ⟨via, parents, rfl⟩ := ha
  have hne : r.hash ≠ (w.mint e p t).hash := by
    intro heq
    have hmem : r.hash ∈ w.log.map (·.hash) := mem_map_of_mem (hw.exact.logged _ _ _ hr)
    rw [heq] at hmem
    exact (nodup_cons.1 hd).1 hmem
  refine (w.resident_append_cases e p t p).imp_left fun heq => heq.trans ?_
  rcases insertAtom_spec { w.cache with clock := w.cache.clock + 1 }
    (w.mint e p t) with ⟨-, hput, hnone⟩ | ⟨-, hsame, old, hold, hkeep⟩
  · have hnot : ¬ sameAtomContent r (w.mint e p t) = true := fun hsame =>
      absurd (hnone r hr) ((hw.keeps_ne_none_iff hr e t).2 ⟨hne, hsame⟩)
    have hres := congrFun hput.resident p
    rw [show (w.mint e p t).path = p from rfl, Function.update_self] at hres
    rw [if_neg hnot]
    exact hres
  · have hres := congrFun hsame.resident p
    obtain rfl := Option.some.inj (hr.symm.trans hold)
    rw [if_pos ((hw.keeps_ne_none_iff hr e t).1 hkeep).2]
    exact hres.trans hr

theorem resident_act_ne (hlog : r ∈ w.log) (hr : w.cache.resident p ≠ some r) (a : Act ι H)
    (hd : ((w.act a).log.map (·.hash)).Nodup) : (w.act a).cache.resident p ≠ some r := by
  intro hback
  by_cases ha : ∃ e t, a.Writes p e t
  · obtain ⟨e, t, via, parents, rfl⟩ := ha
    have hmint : r ≠ w.mint e p t := by
      rintro rfl
      exact (nodup_cons.1 hd).1 (mem_map_of_mem hlog)
    rcases w.resident_append_cases e p t p with heq | hnone
    · have hins := heq.symm.trans hback
      rcases insertAtom_spec { w.cache with clock := w.cache.clock + 1 }
        (w.mint e p t) with ⟨-, hput, -⟩ | ⟨-, hsame, -⟩
      · have hres := congrFun hput.resident p
        rw [show (w.mint e p t).path = p from rfl, Function.update_self] at hres
        exact hmint (Option.some.inj (hins.symm.trans hres))
      · exact hr ((congrFun hsame.resident p).symm.trans hins)
    · cases hnone.symm.trans hback
  · simp only [not_exists] at ha
    rcases w.resident_act_of_not_writes ha with heq | hnone
    · exact hr (heq.symm.trans hback)
    · cases hnone.symm.trans hback

theorem resident_after_ne : ∀ {w : World ι H} {p : Str}
    {r : CausalAtom ι H}, r ∈ w.log → w.cache.resident p ≠ some r →
      ((w.after acts).log.map (·.hash)).Nodup → (w.after acts).cache.resident p ≠ some r := by
  induction acts with
  | nil => exact fun _ hr _ => hr
  | cons a acts ih =>
    intro w p r hlog hr hd
    have hd' := nodup_of_suffix (log_after acts (w.act a)) hd
    exact ih ((w.log_act a).subset hlog) (resident_act_ne hlog hr a hd') hd

/-! ### When a path keeps its atom -/

/-- The deadlines that `sameAtomContent` does not tell apart. -/
def SameNano (t t' : Time) : Prop := unixNano t = unixNano t'

/-- The append of `e` with deadline `t` repeats the constant of `r`, deadlines being compared by
`same`. -/
def Repeats (same : Time → Time → Prop) (r : CausalAtom ι H) (e : Expr ι H) (t : Time) : Prop :=
  ∃ u v, r.expr = .eConst u ∧ e = .eConst v ∧ u.serialize = v.serialize ∧ same r.expiresAt t

omit [DecidableEq H] in
theorem sameAtomContent_mint_iff (w : World ι H) (r : CausalAtom ι H) (e : Expr ι H) (p : Str)
    (t : Time) : sameAtomContent r (w.mint e p t) = true ↔ Repeats SameNano r e t := by
  rw [sameAtomContent_iff]
  constructor
  · rintro ⟨hnano, u, v, hu, hv, hser⟩
    exact ⟨u, v, hu, hv, hser, hnano⟩
  · rintro ⟨u, v, hu, hv, hser, hnano⟩
    exact ⟨hnano, u, v, hu, hv, hser⟩

/-- Every append to `p` in the run repeats the constant that `p` had at its start, and at no time is
`p` evicted or swept. -/
structure Kept (same : Time → Time → Prop) (w : World ι H) (acts : List (Act ι H)) (p : Str)
    (r : CausalAtom ι H) : Prop where
  repeats : ∀ a ∈ acts, ∀ e t, a.Writes p e t → Repeats same r e t
  stays : ∀ before, before <+: acts → (w.after before).cache.resident p ≠ none

theorem Inv.resident_act_iff (hw : w.Inv) (hr : w.cache.resident p = some r) (a : Act ι H)
    (hd : ((w.act a).log.map (·.hash)).Nodup) : (w.act a).cache.resident p = some r ↔
      (∀ e t, a.Writes p e t → Repeats SameNano r e t) ∧ (w.act a).cache.resident p ≠ none := by
  by_cases ha : ∃ e t, a.Writes p e t
  · obtain ⟨e, t, ha⟩ := ha
    have honly : (∀ e t, a.Writes p e t → Repeats SameNano r e t) ↔ Repeats SameNano r e t := by
      refine ⟨fun h => h e t ha, fun h e' t' ha' => ?_⟩
      obtain ⟨via, parents, rfl⟩ := ha
      obtain ⟨via', parents', heq⟩ := ha'
      simp only [Act.call.injEq, StoreCall.mk.injEq, StoreOp.appendAtom.injEq] at heq
      obtain ⟨-, rfl, -, -, rfl⟩ := heq
      exact h
    have hmint : w.mint e p t ≠ r := by
      rintro rfl
      obtain ⟨via, parents, rfl⟩ := ha
      exact (nodup_cons.1 hd).1 (mem_map_of_mem (hw.exact.logged _ _ _ hr))
    rw [honly, ← w.sameAtomContent_mint_iff r e p t]
    rcases hw.resident_write hr ha hd with hres | hnone
    · rw [hres]
      split_ifs with hsame
      · simp [hsame]
      · simp [hsame, hmint]
    · simp [hnone]
  · simp only [not_exists] at ha
    have hvac : ∀ e t, a.Writes p e t → Repeats SameNano r e t := fun e t h => absurd h (ha e t)
    rcases w.resident_act_of_not_writes ha with heq | hnone
    · simpa [heq, hr] using hvac
    · simp [hnone]

/-- **The atom of a path survives a run** exactly if every append repeats it and nothing removes
it. -/
theorem Inv.kept_iff : ∀ {w : World ι H}, w.Inv → ∀ {p : Str}
    {r : CausalAtom ι H}, w.cache.resident p = some r → ((w.after acts).log.map (·.hash)).Nodup →
        ((w.after acts).cache.resident p = some r ↔ Kept SameNano w acts p r) := by
  induction acts with
  | nil =>
    intro w _ p r hr _
    refine ⟨fun _ => ⟨by simp, fun before hbefore => ?_⟩, fun _ => hr⟩
    obtain rfl := prefix_nil.1 hbefore
    simp [hr]
  | cons a acts ih =>
    intro w hw p r hr hd
    have hd' := nodup_of_suffix (log_after acts (w.act a)) hd
    have hlog := (w.log_act a).subset (hw.exact.logged _ _ _ hr)
    have hstep := hw.resident_act_iff hr a hd'
    constructor
    · intro hend
      have hmid : (w.act a).cache.resident p = some r := by
        by_contra hne
        exact resident_after_ne acts hlog hne hd hend
      have htail := (ih (hw.act a) hmid hd).1 hend
      refine ⟨fun b hb => ?_, fun before hbefore => ?_⟩
      · rcases mem_cons.1 hb with rfl | hb
        · exact (hstep.1 hmid).1
        · exact htail.repeats b hb
      · rcases prefix_cons_iff.1 hbefore with rfl | ⟨rest, rfl, hrest⟩
        · simp [hr]
        · exact htail.stays rest hrest
    · intro hkept
      have hmid : (w.act a).cache.resident p = some r :=
        hstep.2 ⟨hkept.repeats a (.head _), hkept.stays [a] (by simp)⟩
      refine (ih (hw.act a) hmid hd).2 ⟨(forall_mem_cons.1 hkept.repeats).2,
        fun before hbefore => ?_⟩
      exact hkept.stays (a :: before) (cons_prefix_cons.2 ⟨rfl, hbefore⟩)

/-! ### Validity -/

/-- The vector `vv` holds the hashes that `GetCurrentHash` returns in `w`. -/
def Captures (w : World ι H) (vv : VersionVector H) : Prop :=
  ∀ p h, vv.lookup p = some h → w.cache.getCurrentHash w.now p = some h

/-- Since `w`, nothing has changed at `p`: its atom has been kept, and its deadline has not passed. -/
def Unchanged (same : Time → Time → Prop) (w : World ι H) (acts : List (Act ι H)) (p : Str) : Prop :=
  ∃ r, w.cache.resident p = some r ∧ Kept same w acts p r ∧ r.expired (w.after acts).now = false

theorem Unchanged.mono {same same' : Time → Time → Prop} (h : ∀ t t', same t t' → same' t t')
    {acts : List (Act ι H)} (hp : Unchanged same w acts p) : Unchanged same' w acts p := by
  obtain ⟨r, hr, hkept, hlive⟩ := hp
  refine ⟨r, hr, ⟨fun a ha e t hwrites => ?_, hkept.stays⟩, hlive⟩
  obtain ⟨u, v, hu, hv, hser, hsame⟩ := hkept.repeats a ha e t hwrites
  exact ⟨u, v, hu, hv, hser, h _ _ hsame⟩

theorem Inv.matchesEntry_after_iff (hw : w.Inv) {acts : List (Act ι H)}
    (hd : ((w.after acts).log.map (·.hash)).Nodup) {h : H} (hp : w.cache.getCurrentHash w.now p = some h) :
    (w.after acts).cache.matchesEntry (w.after acts).now p h = true ↔ Unchanged SameNano w acts p := by
  rw [getCurrentHash_eq, Option.map_eq_some_iff] at hp
  obtain ⟨r, hcur, rfl⟩ := hp
  obtain ⟨hr, -⟩ := current_eq_some.1 hcur
  have hlog := (log_after acts w).subset (hw.exact.logged _ _ _ hr)
  rw [matchesEntry_iff, Option.map_eq_some_iff]
  constructor
  · rintro ⟨a, ha, hhash⟩
    obtain ⟨hres, hlive⟩ := current_eq_some.1 ha
    have hlogged := (Inv.after acts hw).exact.logged _ _ _ hres
    obtain rfl := eq_of_hash_eq hd hlogged hlog hhash
    exact ⟨a, hr, (hw.kept_iff acts hr hd).1 hres, hlive⟩
  · rintro ⟨r', hr', hkept, hlive⟩
    obtain rfl := Option.some.inj (hr.symm.trans hr')
    exact ⟨r, current_eq_some.2 ⟨(hw.kept_iff acts hr hd).2 hkept, hlive⟩, rfl⟩

/-- The two checks of the vector after a run are exact: it is valid if and only if nothing has
changed at any of its paths, and the changed paths are those where something has. -/
structure ChecksExactly (w : World ι H) (acts : List (Act ι H)) (vv : VersionVector H) : Prop where
  verify : (w.after acts).cache.verifyVersionVector (w.after acts).now vv = true ↔
    ∀ p, vv.lookup p ≠ none → Unchanged Eq w acts p
  changed : ∀ p, p ∈ (w.after acts).cache.findChangedPaths (w.after acts).now vv ↔
    vv.lookup p ≠ none ∧ ¬ Unchanged Eq w acts p

theorem mem_findChangedPaths_iff (f : ShardedFrontierCache ι H) (now : Time) (vv : VersionVector H)
    (p : Str) : p ∈ f.findChangedPaths now vv ↔
      ∃ h, vv.lookup p = some h ∧ ¬ f.matchesEntry now p h = true := by
  simp only [findChangedPaths, mem_map, mem_filter]
  constructor
  · rintro ⟨⟨q, h⟩, ⟨hmem, hnot⟩, rfl⟩
    exact ⟨h, GoMap.lookup_eq_some.2 hmem, by simpa using hnot⟩
  · rintro ⟨h, hlookup, hnot⟩
    exact ⟨⟨p, h⟩, ⟨GoMap.lookup_eq_some.1 hlookup, by simpa using hnot⟩, rfl⟩

theorem verifyVersionVector_iff (f : ShardedFrontierCache ι H) (now : Time) (vv : VersionVector H) :
    f.verifyVersionVector now vv = true ↔ ∀ p h, vv.lookup p = some h → f.matchesEntry now p h = true := by
  simp only [verifyVersionVector, all_eq_true]
  constructor
  · intro hall p h hlookup
    exact hall ⟨p, h⟩ (GoMap.lookup_eq_some.1 hlookup)
  · rintro hall ⟨p, h⟩ hmem
    exact hall p h (GoMap.lookup_eq_some.2 hmem)

/-- **A version vector is valid while nothing has changed**, for every run from the state in which it
was captured and as long as no two atoms have the same hash, if and only if deadlines are told apart:
where every append to a path has repeated its constant and its `UnixNano`, and nothing has removed
it, each of them had the very deadline. -/
theorem checksExactly_iff {w : World ι H} (hw : w.Reachable) {vv : VersionVector H}
    (hvv : w.Captures vv) {acts : List (Act ι H)} (hd : ((w.after acts).log.map (·.hash)).Nodup) :
    ChecksExactly w acts vv ↔
      ∀ p r, vv.lookup p ≠ none → w.cache.resident p = some r → Unchanged SameNano w acts p →
        ∀ a ∈ acts, ∀ e t, a.Writes p e t → t = r.expiresAt := by
  have hmatch : ∀ p h, vv.lookup p = some h →
      ((w.after acts).cache.matchesEntry (w.after acts).now p h = true ↔
        Unchanged SameNano w acts p) := fun p h hp => hw.inv.matchesEntry_after_iff hd (hvv p h hp)
  have hnano : ∀ {p}, Unchanged Eq w acts p → Unchanged SameNano w acts p := fun h =>
    h.mono fun t t' heq => congrArg unixNano heq
  constructor
  · intro hexact p r hp hr hunchanged a ha e t hwrites
    have heq : Unchanged Eq w acts p := by
      by_contra hnot
      obtain ⟨h, hlookup, hno⟩ := (mem_findChangedPaths_iff ..).1 ((hexact.changed p).2 ⟨hp, hnot⟩)
      exact hno ((hmatch p h hlookup).2 hunchanged)
    obtain ⟨r', hr', hkept, -⟩ := heq
    obtain rfl := Option.some.inj (hr.symm.trans hr')
    obtain ⟨-, -, -, -, -, hdeadline⟩ := hkept.repeats a ha e t hwrites
    exact hdeadline.symm
  · intro hdeadlines
    have hiff : ∀ p h, vv.lookup p = some h →
        ((w.after acts).cache.matchesEntry (w.after acts).now p h = true ↔
          Unchanged Eq w acts p) := by
      intro p h hp
      rw [hmatch p h hp]
      refine ⟨fun hunchanged => ?_, hnano⟩
      obtain ⟨r, hr, hkept, hlive⟩ := id hunchanged
      refine ⟨r, hr, ⟨fun a ha e t hwrites => ?_, hkept.stays⟩, hlive⟩
      obtain ⟨u, v, hu, hv, hser, -⟩ := hkept.repeats a ha e t hwrites
      exact ⟨u, v, hu, hv, hser, (hdeadlines p r (by simp [hp]) hr hunchanged a ha e t hwrites).symm⟩
    refine ⟨?_, fun p => ?_⟩
    · rw [verifyVersionVector_iff]
      constructor
      · intro hall p hp
        obtain ⟨h, hlookup⟩ := Option.ne_none_iff_exists'.1 hp
        exact (hiff p h hlookup).1 (hall p h hlookup)
      · intro hall p h hlookup
        exact (hiff p h hlookup).2 (hall p (by simp [hlookup]))
    · rw [mem_findChangedPaths_iff]
      constructor
      · rintro ⟨h, hlookup, hnot⟩
        exact ⟨by simp [hlookup], fun hp => hnot ((hiff p h hlookup).2 hp)⟩
      · rintro ⟨hp, hnot⟩
        obtain ⟨h, hlookup⟩ := Option.ne_none_iff_exists'.1 hp
        exact ⟨h, hlookup, fun hm => hnot ((hiff p h hlookup).1 hm)⟩

end World

section Instances

local instance vectorHashing : Hashing Str := ⟨id, id, fun _ => 0⟩

def afterSet : World Unit Str :=
  ((World.init 0 0).append (.eConst (.vString (str "a"))) (str "k") zeroTime).2

theorem afterSet_reachable : afterSet.Reachable := (World.reachable_init 0 0).append _ _ _

def setVector : VersionVector Str :=
  match afterSet.cache.getCurrentHash 0 (str "k") with
  | some h => AList.insert (str "k") h ∅
  | none => ∅

theorem afterSet_captures : afterSet.Captures setVector := by
  have hsome : (afterSet.cache.getCurrentHash 0 (str "k")).isSome := by decide +kernel
  obtain ⟨h, hh⟩ := Option.isSome_iff_exists.1 hsome
  intro p h' hp
  rw [setVector, hh] at hp
  simp only at hp
  rw [GoMap.lookup_insert] at hp
  split_ifs at hp with hk
  · subst hk
    obtain rfl := Option.some.inj hp
    exact hh
  · cases hp

def rewriteUntil (t : Time) : List (World.Act Unit Str) :=
  [.call ⟨.given, .appendAtom (.eConst (.vString (str "a"))) (str "k") [] t⟩]

/-- An instant in the year 2339 whose `UnixNano` is that of no deadline at all. -/
def year2339 : Time := zeroTime + 4 * 2 ^ 64

/-- The key gets a deadline, and the vector stays valid. -/
theorem deadline2339_not_checksExactly : afterSet.Reachable ∧ afterSet.Captures setVector ∧
    ((afterSet.after (rewriteUntil year2339)).log.map (·.hash)).Nodup ∧
    ¬ World.ChecksExactly afterSet (rewriteUntil year2339) setVector := by
  have hd : ((afterSet.after (rewriteUntil year2339)).log.map (·.hash)).Nodup := by decide +kernel
  refine ⟨afterSet_reachable, afterSet_captures, hd, fun hexact => ?_⟩
  have hvalid : (afterSet.after (rewriteUntil year2339)).cache.verifyVersionVector
      (afterSet.after (rewriteUntil year2339)).now setVector = true := by decide +kernel
  have hlookup : setVector.lookup (str "k") ≠ none := by decide +kernel
  obtain ⟨r, hr, hkept, -⟩ := hexact.verify.1 hvalid (str "k") hlookup
  obtain ⟨-, -, -, -, -, hdeadline⟩ := hkept.repeats _ (.head _) _ year2339 ⟨_, _, rfl⟩
  have hzero : (afterSet.cache.resident (str "k")).map (·.expiresAt) = some zeroTime := by
    decide +kernel
  rw [hr, Option.map_some, hdeadline] at hzero
  exact absurd (Option.some.inj hzero) (by decide)

theorem checksExactly_iff_same_value : afterSet.Reachable ∧ afterSet.Captures setVector ∧
    ((afterSet.after (rewriteUntil zeroTime)).log.map (·.hash)).Nodup ∧
    (World.ChecksExactly afterSet (rewriteUntil zeroTime) setVector ↔
      ∀ p r, setVector.lookup p ≠ none → afterSet.cache.resident p = some r →
        World.Unchanged World.SameNano afterSet (rewriteUntil zeroTime) p →
          ∀ a ∈ rewriteUntil zeroTime, ∀ e t, a.Writes p e t → t = r.expiresAt) :=
  have hd : ((afterSet.after (rewriteUntil zeroTime)).log.map (·.hash)).Nodup := by decide +kernel
  ⟨afterSet_reachable, afterSet_captures, hd,
    World.checksExactly_iff afterSet_reachable afterSet_captures hd⟩

end Instances

end Wavicle.Storage
