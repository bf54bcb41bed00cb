import Wavicle.Storage.Crystal

/-! # CausalCrystal is a lawful store

Compaction and eviction drop only atoms that are not on the frontier, so every hash of the frontier
can be resolved at all times. -/

namespace Wavicle.Storage

open Lib Wavicle.Core

namespace CausalCrystal

variable {ι H : Type} [DecidableEq H]

theorem onFrontier_iff (c : CausalCrystal ι H) (hash : H) :
    c.onFrontier hash = true ↔ ∃ p, c.frontier.lookup p = some hash := by
  simp only [onFrontier, List.any_eq_true, decide_eq_true_eq, GoMap.lookup_eq_some]
  constructor
  · rintro ⟨⟨p, h⟩, hmem, rfl⟩
    exact ⟨p, hmem⟩
  · rintro ⟨p, hmem⟩
    exact ⟨⟨p, hash⟩, hmem, rfl⟩

/-- Atoms that are not on the frontier may be gone from the cache, and nothing else. -/
structure Sheds (c c' : CausalCrystal ι H) : Prop where
  frontier : c'.frontier = c.frontier
  cached : ∀ hash, c'.atomCache.lookup hash = c.atomCache.lookup hash ∨
    c'.atomCache.lookup hash = none ∧ c.onFrontier hash = false

theorem Sheds.refl (c : CausalCrystal ι H) : Sheds c c := ⟨rfl, fun _ => Or.inl rfl⟩

variable {c : CausalCrystal ι H}

variable {c' : CausalCrystal ι H} {atoms : List (CausalAtom ι H)}

theorem Sheds.onFrontier (h : Sheds c c') (hash : H) : c'.onFrontier hash = c.onFrontier hash := by
  unfold CausalCrystal.onFrontier
  rw [h.frontier]

theorem Sheds.trans {c' c'' : CausalCrystal ι H} (h : Sheds c c') (h' : Sheds c' c'') :
    Sheds c c'' where
  frontier := h'.frontier.trans h.frontier
  cached hash := by
    rcases h'.cached hash with heq | ⟨hnone, hoff⟩
    · rw [heq]
      exact h.cached hash
    · exact Or.inr ⟨hnone, h.onFrontier hash ▸ hoff⟩

theorem sheds_drop {hash : H} (h : c.onFrontier hash = false) :
    Sheds c (c.drop hash) where
  frontier := rfl
  cached hash' := by
    rw [drop, GoMap.lookup_erase]
    split_ifs with heq
    · exact Or.inr ⟨rfl, heq ▸ h⟩
    · exact Or.inl rfl

theorem sheds_evictFrom : ∀ (range : List H) (budget : ℕ) (c : CausalCrystal ι H),
    Sheds c (c.evictFrom budget range)
  | _, 0, c => by
    rw [evictFrom]
    exact .refl c
  | [], _ + 1, c => by
    rw [evictFrom]
    exact .refl c
  | hash :: range, budget + 1, c => by
    rw [evictFrom]
    split
    · exact sheds_evictFrom range (budget + 1) c
    · split_ifs with h
      · exact sheds_evictFrom range (budget + 1) c
      · exact (sheds_drop (by simpa using h)).trans (sheds_evictFrom range budget _)

theorem sheds_evictIfNeeded (c : CausalCrystal ι H) (range : List H) : Sheds c (c.evictIfNeeded range) := by
  unfold evictIfNeeded
  split_ifs
  · exact .refl c
  · exact sheds_evictFrom range _ c

theorem sheds_compact (c : CausalCrystal ι H) : Sheds c c.compact := by
  have hfold : ∀ (keys : List H) (d : CausalCrystal ι H), Sheds c d →
      Sheds c (keys.foldl (fun d hash => if c.onFrontier hash then d else d.drop hash) d) := by
    intro keys
    induction keys with
    | nil => exact fun d hd => hd
    | cons hash keys ih =>
      intro d hd
      refine ih _ ?_
      simp only
      split_ifs with h
      · exact hd
      · exact hd.trans (sheds_drop (by rw [hd.onFrontier]; simpa using h))
  exact hfold _ c (.refl c)

theorem Sheds.getCurrent (h : Sheds c c') : c'.getCurrent = c.getCurrent := by
  funext p
  unfold CausalCrystal.getCurrent
  rw [h.frontier]
  cases hp : c.frontier.lookup p with
  | none => rfl
  | some hash =>
    rcases h.cached hash with heq | ⟨-, hoff⟩
    · exact heq
    · rw [(c.onFrontier_iff hash).2 ⟨p, hp⟩] at hoff
      cases hoff

/-! ### The invariant -/

/-- The indexes agree with each other and with the log of minted atoms. -/
structure Exact (c : CausalCrystal ι H) (log : List (CausalAtom ι H)) : Prop where
  cached : ∀ hash a, c.atomCache.lookup hash = some a → a.hash = hash ∧ a ∈ log
  resolves : ∀ p hash, c.frontier.lookup p = some hash → ∃ a, c.atomCache.lookup hash = some a
  paths : (log.map (·.hash)).Nodup → ∀ p a, c.getCurrent p = some a → a.path = p

theorem Exact.sheds (hc : Exact c atoms)
    (h : Sheds c c') : Exact c' atoms where
  cached hash a ha := by
    rcases h.cached hash with heq | ⟨hnone, -⟩
    · exact hc.cached hash a (heq ▸ ha)
    · rw [hnone] at ha
      cases ha
  resolves p hash hp := by
    rw [h.frontier] at hp
    rcases h.cached hash with heq | ⟨-, hoff⟩
    · rw [heq]
      exact hc.resolves p hash hp
    · rw [(c.onFrontier_iff hash).2 ⟨p, hp⟩] at hoff
      cases hoff
  paths hnd p a ha := by
    rw [h.getCurrent] at ha
    exact hc.paths hnd p a ha

theorem getCurrent_eq_some {p : Str} {a : CausalAtom ι H} : c.getCurrent p = some a ↔
      ∃ hash, c.frontier.lookup p = some hash ∧ c.atomCache.lookup hash = some a := by
  unfold getCurrent getAtom
  cases c.frontier.lookup p <;> simp

theorem Exact.getCurrentHash (hc : Exact c atoms) (p : Str) :
    c.getCurrentHash p = (c.getCurrent p).map (·.hash) := by
  unfold CausalCrystal.getCurrentHash
  cases hp : c.frontier.lookup p with
  | none => rw [CausalCrystal.getCurrent, hp]; rfl
  | some hash =>
    obtain ⟨a, ha⟩ := hc.resolves p hash hp
    rw [getCurrent_eq_some.2 ⟨hash, hp, ha⟩, Option.map_some, (hc.cached hash a ha).1]

theorem Exact.getCurrent_insert
    (hc : Exact c atoms) {atom : CausalAtom ι H} (hnd : ((atom :: atoms).map (·.hash)).Nodup)
    (hfrontier : c'.frontier = c.frontier.insert atom.path atom.hash)
    (hcache : c'.atomCache = c.atomCache.insert atom.hash atom) (p : Str) :
    c'.getCurrent p = if p = atom.path then some atom else c.getCurrent p := by
  have hfresh : ∀ b ∈ atoms, b.hash ≠ atom.hash := fun b hb heq =>
    (List.nodup_cons.1 hnd).1 (List.mem_map.2 ⟨b, hb, heq⟩)
  unfold CausalCrystal.getCurrent CausalCrystal.getAtom
  rw [hfrontier, hcache, GoMap.lookup_insert]
  by_cases hp : p = atom.path
  · simp [hp]
  · rw [if_neg hp, if_neg hp]
    cases hf : c.frontier.lookup p with
    | none => rfl
    | some hash =>
      obtain ⟨a, ha⟩ := hc.resolves p hash hf
      obtain ⟨rfl, hlog⟩ := hc.cached hash a ha
      simp only [GoMap.lookup_insert, if_neg (hfresh a hlog)]

theorem Exact.insert (hc : Exact c atoms)
    {atom : CausalAtom ι H} (hfrontier : c'.frontier = c.frontier.insert atom.path atom.hash)
    (hcache : c'.atomCache = c.atomCache.insert atom.hash atom) : Exact c' (atom :: atoms) where
  cached hash a ha := by
    rw [hcache, GoMap.lookup_insert] at ha
    split_ifs at ha with heq
    · obtain rfl := Option.some.inj ha
      exact ⟨heq.symm, List.mem_cons_self⟩
    · exact (hc.cached hash a ha).imp_right (List.mem_cons_of_mem _)
  resolves p hash hp := by
    rw [hfrontier, GoMap.lookup_insert] at hp
    rw [hcache, GoMap.lookup_insert]
    split_ifs with heq
    · exact ⟨atom, rfl⟩
    · split_ifs at hp with hpath
      · exact absurd (Option.some.inj hp).symm heq
      · exact hc.resolves p hash hp
  paths hnd p a ha := by
    rw [hc.getCurrent_insert hnd hfrontier hcache] at ha
    split_ifs at ha with hp
    · obtain rfl := Option.some.inj ha
      exact hp.symm
    · exact hc.paths (List.nodup_cons.1 hnd).2 p a ha

theorem Exact.log (hc : Exact c atoms) (atom : CausalAtom ι H) :
    Exact c (atom :: atoms) where
  cached hash a ha := (hc.cached hash a ha).imp_right (List.mem_cons_of_mem _)
  resolves := hc.resolves
  paths hnd := hc.paths (List.nodup_cons.1 hnd).2

theorem exact_recover (atoms : List (CausalAtom ι H)) : Exact (recover atoms) atoms.reverse := by
  have hfold : ∀ (atoms log : List (CausalAtom ι H)) (c : CausalCrystal ι H), Exact c log →
      Exact (atoms.foldl (fun c atom =>
        { frontier := c.frontier.insert atom.path atom.hash
          atomCache := c.atomCache.insert atom.hash atom
          atomCount := c.atomCount + 1
          clock := max c.clock atom.logicalClock }) c) (atoms.reverse ++ log) := by
    intro atoms
    induction atoms with
    | nil => exact fun log c hc => hc
    | cons atom atoms ih =>
      intro log c hc
      rw [List.reverse_cons, List.append_assoc]
      exact ih (atom :: log) _ (hc.insert rfl rfl)
  have hempty : Exact (⟨∅, ∅, 0, 0⟩ : CausalCrystal ι H) [] :=
    ⟨fun hash a h => by simp at h, fun p hash h => by simp at h, fun _ p a h => by
      simp [getCurrent] at h⟩
  have := hfold atoms [] _ hempty
  rwa [List.append_nil] at this

end CausalCrystal

namespace CrystalWorld

variable {ι H : Type} [DecidableEq H] [Hashing H]

/-- What holds in every reachable state. -/
structure Inv (w : CrystalWorld ι H) : Prop where
  exact : w.crystal.Exact w.log
  sound : w.interned.Sound

omit [Hashing H] in
theorem inv_init (atoms : List (CausalAtom ι H)) (now : Time) (draws : ℕ → Draw H) :
    Inv (init atoms now draws) := ⟨CausalCrystal.exact_recover atoms, by simp [init, InternTable.Sound]⟩

variable {w : CrystalWorld ι H}

theorem Inv.append (hw : w.Inv) (expr : Expr ι H) (path : Str) (causalPast : List H)
    (expiresAt : Time) : Inv (w.append expr path causalPast expiresAt).2 := by
  refine ⟨?_, (hw.sound.intern expr).2⟩
  unfold CrystalWorld.append CausalCrystal.appendAtom
  simp only
  split
  · exact ⟨fun hash a ha => (hw.exact.log _).cached hash a ha, hw.exact.resolves,
      (hw.exact.log _).paths⟩
  · have hins : (w.crystal.insertAtom (w.crystal.mint w.now (w.draws w.drawn)
        (w.interned.intern expr).1 path causalPast expiresAt)).Exact (w.crystal.mint w.now
          (w.draws w.drawn) (w.interned.intern expr).1 path causalPast expiresAt :: w.log) :=
      hw.exact.insert rfl rfl
    simp only
    split_ifs
    · exact hins.sheds (CausalCrystal.sheds_evictIfNeeded ..)
    · exact hins

theorem current_append (hw : w.Inv) {expr : Expr ι H} {path : Str} {causalPast : List H}
    {expiresAt : Time} (hnd : ((w.append expr path causalPast expiresAt).2.log.map (·.hash)).Nodup)
    {p : Str} {a : CausalAtom ι H}
    (ha : (w.append expr path causalPast expiresAt).2.crystal.getCurrent p = some a) :
    w.crystal.getCurrent p = some a ∨ p = path ∧ a.expr = (w.interned.intern expr).1 ∧ a ∉ w.log := by
  unfold CrystalWorld.append CausalCrystal.appendAtom at ha
  simp only at ha
  split at ha
  · exact Or.inl ha
  · simp only at ha
    rw [apply_ite CausalCrystal.getCurrent, (CausalCrystal.sheds_evictIfNeeded _ _).getCurrent,
      ite_self, hw.exact.getCurrent_insert hnd rfl rfl] at ha
    split_ifs at ha with hp
    · obtain rfl := Option.some.inj ha
      exact Or.inr ⟨hp, rfl, fun hmem => (List.nodup_cons.1 hnd).1 (List.mem_map.2 ⟨_, hmem, rfl⟩)⟩
    · exact Or.inl ha

theorem call_of_isRead (w : CrystalWorld ι H) : ∀ c : StoreCall ι H, c.IsRead → (w.call c).2 = w
  | ⟨_, .getCurrent _⟩, _ => rfl
  | ⟨_, .getAtom _⟩, _ => rfl
  | ⟨_, .verifyVersionVector _⟩, _ => rfl
  | ⟨_, .getCurrentHash _⟩, _ => rfl
  | ⟨_, .findChangedPaths _⟩, _ => rfl

theorem Inv.idle {w' : CrystalWorld ι H} (hw : w.Inv) (h : Idle w w') : w'.Inv := by
  cases h with
  | read c hc => rwa [w.call_of_isRead c hc]
  | tick t _ => exact ⟨hw.exact, hw.sound⟩
  | compact => exact ⟨hw.exact.sheds (CausalCrystal.sheds_compact _), hw.sound⟩
  | intern e => exact ⟨hw.exact, (hw.sound.intern e).2⟩

theorem Inv.step {w' : CrystalWorld ι H} (hw : w.Inv) (h : Step w w') : w'.Inv := by
  cases h with
  | idle h => exact hw.idle h
  | call c =>
    match c with
    | ⟨_, .appendAtom expr path parents expiresAt⟩ => exact hw.append expr path parents expiresAt
    | ⟨_, .frontierPaths⟩ => exact hw
    | ⟨_, .getCurrent _⟩ => exact hw
    | ⟨_, .getAtom _⟩ => exact hw
    | ⟨_, .verifyVersionVector _⟩ => exact hw
    | ⟨_, .getCurrentHash _⟩ => exact hw
    | ⟨_, .findChangedPaths _⟩ => exact hw

theorem Reachable.inv (h : Reachable w) : w.Inv := by
  obtain ⟨atoms, now, draws, h⟩ := h
  induction h with
  | refl => exact inv_init atoms now draws
  | tail _ hstep ih => exact ih.step hstep

omit [Hashing H] in
theorem Inv.currentHash (hw : w.Inv) (p : Str) : w.crystal.getCurrentHash p = w.view.currentHash p :=
  hw.exact.getCurrentHash p

theorem shows_view : Shows (CrystalWorld.call (ι := ι) (H := H)) CrystalWorld.Inv CrystalWorld.view where
  answer
    | w, ⟨_, .getCurrent _⟩, _, _ => rfl
    | w, ⟨_, .getAtom _⟩, _, _ => rfl
    | w, ⟨_, .verifyVersionVector entries⟩, hw, _ => by
      simp only [CrystalWorld.call, CausalCrystal.verifyVersionVector, hw.currentHash, View.answer,
        View.changed, ne_eq, decide_not, Bool.not_not]
    | w, ⟨_, .getCurrentHash path⟩, hw, _ => hw.currentHash path
    | w, ⟨_, .findChangedPaths entries⟩, hw, _ => by
      simp only [CrystalWorld.call, CausalCrystal.findChangedPaths, hw.currentHash, View.answer]
      rfl
  frame w c _ hc := by rw [w.call_of_isRead c hc]
  keeps w c hw hc := by rwa [w.call_of_isRead c hc]

def lawful (ι H : Type) [DecidableEq H] [Hashing H] : LawfulStore (CrystalWorld ι H) ι H where
  call := CrystalWorld.call
  Idle := Idle
  view := CrystalWorld.view
  log := CrystalWorld.log
  Good := CrystalWorld.Inv
  shows := shows_view
  log_read w c _ hc := by rw [w.call_of_isRead c hc]
  pathsAgree _ hw hnd := hw.exact.paths hnd
  logged w hw p a ha := by
    obtain ⟨hash, -, ha⟩ := CausalCrystal.getCurrent_eq_some.1 ha
    exact (hw.exact.cached hash a ha).2
  append w hw via e p ps t := by
    refine ⟨hw.append e p ps t, List.suffix_cons _ _, fun hnd q a ha => ?_⟩
    refine (current_append hw hnd ha).imp_right fun h => ⟨h.1, ?_⟩
    rw [h.2.1]
    exact (hw.sound.intern e).1
  fresh w hw via e p ps t hnd q a ha := (current_append hw hnd ha).imp_right fun h => h.2.2
  idle w w' hw h := by
    refine ⟨hw.idle h, ?_, ?_⟩
    · cases h with
      | read c hc =>
        exact (w.call_of_isRead c hc).symm ▸ List.suffix_rfl
      | _ => exact List.suffix_rfl
    · cases h with
      | read c hc =>
        rw [w.call_of_isRead c hc]
        exact fun _ _ h => h
      | compact =>
        intro q a ha
        exact (congrFun (CausalCrystal.sheds_compact w.crystal).getCurrent q).symm.trans ha
      | tick t _ => exact fun _ _ h => h
      | intern e => exact fun _ _ h => h

end CrystalWorld

end Wavicle.Storage
