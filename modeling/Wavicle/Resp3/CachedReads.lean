import Wavicle.Lib.Triples
import Wavicle.Engine.CacheSpec
import Wavicle.Engine.CachedProofs
import Wavicle.Resp3.TameCommands
import Wavicle.Resp3.ServerState

/-! # Reads through the proof cache

A server is *coherent* if all atoms are constants and each proof in its cache stands for an atom; all commands
keep a server coherent. -/

namespace Wavicle.Resp3

open Lib Wavicle.Core Storage Engine Prog

section

variable {H : Type} [DecidableEq H] [Hashing H]

/-! ### The invariant -/

/-- All atoms are constants, and the cached proofs are proofs of constants. -/
structure Coherent (s : Server (World Ref H) H) : Prop where
  store : s.store.Inv
  const : ∀ a ∈ s.store.log, ∃ v, a.expr = .eConst v
  proofs : s.proofCache.Holds fun key proof =>
    ∃ p, key = queryHash p ∧ CachedProof s.store.log p proof

theorem coherent_new (maxBytes : ℤ) (now : Time) :
    Coherent (Server.new (.init maxBytes now) now : Server (World Ref H) H) :=
  ⟨World.inv_init maxBytes now, List.forall_mem_nil _, ProofCache.holds_new 2000⟩

variable {s : Server (World Ref H) H}

theorem Coherent.constView (hs : Coherent s) : ConstView s.store.log s.store.view :=
  ⟨hs.store.pathsAgree, fun _ _ ha => hs.store.logged ha,
    fun _ _ ha => hs.const _ (hs.store.logged ha)⟩

theorem Coherent.withStore (hs : Coherent s) {w : World Ref H} (hw : w.Inv)
    (hlog : s.store.log ⊆ w.log) (hconst : ∀ a ∈ w.log, ∃ v, a.expr = .eConst v) :
    Coherent { s with store := w } :=
  ⟨hw, hconst, hs.proofs.mono fun _ _ ⟨p, hkey, hproof⟩ => ⟨p, hkey, hproof.mono hlog⟩⟩

theorem Coherent.sameLog (hs : Coherent s) {w : World Ref H} (hw : w.Inv) (hlog : w.log = s.store.log) :
    Coherent { s with store := w } :=
  hs.withStore hw (hlog ▸ List.Subset.refl _) (hlog ▸ hs.const)

/-! ### Operations -/

theorem Coherent.call (hs : Coherent s) : ∀ {c : StoreCall Ref H}, Tame (.store c) →
    Coherent { s with store := (s.store.call c).2 }
  | ⟨via, .appendAtom (.eConst v) path parents expiresAt⟩, _ => by
    refine hs.withStore (hs.store.call _) (List.subset_cons_self _ _) fun a ha => ?_
    rcases List.mem_cons.1 ha with rfl | ha
    · exact ⟨v, rfl⟩
    · exact hs.const a ha
  | ⟨_, .getCurrent _⟩, _ | ⟨_, .getAtom _⟩, _ | ⟨_, .frontierPaths⟩, _
  | ⟨_, .verifyVersionVector _⟩, _ | ⟨_, .getCurrentHash _⟩, _ | ⟨_, .findChangedPaths _⟩, _ =>
    hs.sameLog (hs.store.call _) rfl

theorem Coherent.change (hs : Coherent s) (c : Change) : Coherent (s.change (shardedBackend H) c) := by
  refine ⟨hs.store.change c, fun a ha => ?_, hs.proofs.change fun key proof ⟨p, hkey, hproof⟩ =>
    ⟨p, hkey, hproof.change c⟩⟩
  obtain ⟨b, hb, rfl⟩ := List.mem_map.1 ha
  obtain ⟨v, hv⟩ := hs.const b hb
  refine ⟨v.change c, ?_⟩
  change b.expr.change c = _
  rw [hv]
  rfl

theorem Coherent.step (hs : Coherent s) : ∀ {op : ServerOp H}, Tame op →
    Coherent (s.step (shardedBackend H) op).2
  | .store _, hop => hs.call hop
  | .change c, _ => hs.change c
  | .getProof key, _ => ⟨hs.store, hs.const, hs.proofs.get key⟩
  | .loadType _, _ | .storeType _ _, _ | .deleteType _, _ | .clearTypes, _ | .newEConst _, _
  | .newECompose _, _ | .newMap, _ | .newArray _, _ | .now, _ | .staleRefused, _ | .uptime, _ =>
    ⟨hs.store, hs.const, hs.proofs⟩

/-- The program keeps the proof cache coherent. -/
abbrev KeepsCoherent {α : Type} (p : ServerProg H α) : Prop :=
  Keeps (Server.step (shardedBackend H)) Coherent p fun _ => True

variable {α : Type}

theorem keepsCoherent_of_tame {p : ServerProg H α} (hp : p.CallsOnly Tame) : KeepsCoherent p :=
  keeps_of_callsOnly (fun _ _ hs hop => Coherent.step hs hop) hp

/-! ### Programs over the store -/

theorem run_onStore (B : Backend (World Ref H) H) : ∀ (p : StoreProg Ref H α)
    (s : Server (World Ref H) H), (onStore p).run (Server.step B) s =
      ((p.run B.call s.store).1, { s with store := (p.run B.call s.store).2 })
  | .ret _, _ => rfl
  | .call c k, s => run_onStore B (k (B.call s.store c).1) { s with store := (B.call s.store c).2 }

omit [DecidableEq H] [Hashing H] in
theorem tame_onStore : ∀ {p : StoreProg Ref H α}, Reads p → (onStore p).CallsOnly Tame
  | .ret _, _ => trivial
  | .call ⟨_, .getCurrent _⟩ _, ⟨_, hk⟩ | .call ⟨_, .getAtom _⟩ _, ⟨_, hk⟩
  | .call ⟨_, .verifyVersionVector _⟩ _, ⟨_, hk⟩ | .call ⟨_, .getCurrentHash _⟩ _, ⟨_, hk⟩
  | .call ⟨_, .findChangedPaths _⟩ _, ⟨_, hk⟩ => ⟨trivial, fun r => tame_onStore (hk r)⟩

/-- **A program that only reads the store**: its result is that of the view, and the log is as before. -/
theorem Coherent.run_onStore (hs : Coherent s) {p : StoreProg Ref H α} (hp : Reads p) :
    ∃ w : World Ref H, (onStore p).run (shardedStep H) s =
        (p.eval s.store.view.answer, { s with store := w }) ∧
      w.log = s.store.log ∧ w.view = s.store.view ∧ Coherent { s with store := w } := by
  obtain ⟨hres, hview, -⟩ := World.shows_view.run hp (s := s.store) trivial
  have hlog := keeps_of_callsOnly (I := fun w : World Ref H => w.Inv ∧ w.log = s.store.log)
    (fun w c hw hc => ⟨hw.1.call c, (w.log_call_of_isRead c hc).trans hw.2⟩) hp s.store ⟨hs.store, rfl⟩
  refine ⟨_, ?_, hlog.1.2, hview, hs.sameLog hlog.1.1 hlog.1.2⟩
  rw [Resp3.run_onStore, ← hres]
  rfl

/-! ### Reads -/

variable [Floats] [Spaces] [Printing] [Unicode] [Runtime]

omit [Floats] [Spaces] [Printing] [Unicode] [Runtime] in
theorem Coherent.getProof (hs : Coherent s) (key : H) :
    Coherent { s with proofCache := (s.proofCache.get key).2 } :=
  ⟨hs.store, hs.const, hs.proofs.get key⟩

omit [Floats] [Spaces] [Unicode] [Runtime] in
theorem Coherent.run_readCached (hs : Coherent s) (fuel : ℕ) {path : Str}
    {proof : MaterializedProof Ref H} (hproof : (s.proofCache.get (queryHash path)).1 = some proof) :
    ((readCached fuel path).run (shardedStep H) s).1 =
        formatResult ((reduceIncremental fuel proof).eval s.store.view.answer).1 ∧
      Coherent ((readCached fuel path).run (shardedStep H) s).2 := by
  obtain ⟨p, hkey, hcached⟩ := hs.proofs.of_get hproof
  have hs₁ := hs.getProof (queryHash path)
  obtain ⟨w, hrun, hlog, -, hs₂⟩ := hs₁.run_onStore (reads_reduceIncremental fuel proof)
  unfold readCached
  rw [run_bind]
  simp only [ServerOp.ask, run_ask, Server.step, hproof]
  rw [run_bind, hrun, run_bind]
  simp only [run_ask, Server.step, run_pure]
  refine ⟨trivial, hs₂.store, hs₂.const, hs₂.proofs.update ⟨p, hkey, ?_⟩⟩
  change CachedProof w.log p _
  rw [hlog]
  exact hcached.reduced hs₁.constView fuel

omit [Floats] [Spaces] [Unicode] [Runtime] in
theorem Coherent.run_readComposed (hs : Coherent s) (fuel : ℕ) (path : Str) :
    ((readComposed fuel path).run (shardedStep H) s).1 =
        ((composeProof fuel path).eval s.store.view.answer).map (fun proof => formatValue proof.value) ∧
      Coherent ((readComposed fuel path).run (shardedStep H) s).2 := by
  obtain ⟨w, hrun, hlog, -, hs₁⟩ := hs.run_onStore (reads_composeProof fuel path)
  unfold readComposed
  rw [run_bind, hrun]
  cases hproof : (composeProof fuel path).eval s.store.view.answer with
  | error f => exact ⟨rfl, hs₁⟩
  | ok proof =>
    simp only [run_bind, ServerOp.ask, run_ask, Server.step, run_pure]
    refine ⟨rfl, hs₁.store, hs₁.const, hs₁.proofs.set ⟨path, rfl, ?_⟩⟩
    change CachedProof w.log path proof
    rw [hlog]
    exact cachedProof_composed hs.constView hproof

variable (fuel : ℕ) (path : Str) (rest : List Str)

section

omit [Floats] [Spaces] [Unicode] [Runtime]

theorem run_readCached_none {path : Str} (hproof : (s.proofCache.get (queryHash path)).1 = none) :
    (readCached fuel path).run (shardedStep H) s =
      (.ok none, { s with proofCache := (s.proofCache.get (queryHash path)).2 }) := by
  unfold readCached
  simp only [run_bind, ServerOp.ask, run_ask, Server.step, hproof, run_pure]

theorem keepsCoherent_readCached : KeepsCoherent (readCached fuel path : ServerProg H _) := by
  intro s hs
  refine ⟨?_, trivial⟩
  cases hproof : (s.proofCache.get (queryHash path)).1 with
  | some proof => exact (hs.run_readCached fuel hproof).2
  | none =>
    rw [run_readCached_none fuel hproof]
    exact hs.getProof _

theorem keepsCoherent_readProof : KeepsCoherent (readProof fuel path : ServerProg H Outcome) := by
  refine (keepsCoherent_readCached fuel path).bind fun r _ => ?_
  rcases r with f | (_ | reply)
  · exact keeps_pure trivial
  · exact fun s hs => ⟨(hs.run_readComposed fuel path).2, trivial⟩
  · exact keeps_pure trivial

theorem keepsCoherent_getPath : KeepsCoherent (getPath fuel path : ServerProg H Outcome) := by
  refine (keepsCoherent_of_tame (tame_liveAtom path)).bind fun atom _ => ?_
  cases atom with
  | none => exact keeps_pure trivial
  | some _ => exact keepsCoherent_readProof fuel path

theorem keepsCoherent_readPath : KeepsCoherent (readPath fuel path : ServerProg H Outcome) := by
  refine (keepsCoherent_of_tame (tame_liveAtom path)).bind fun atom _ => ?_
  cases atom with
  | none => exact keeps_pure trivial
  | some _ => exact (keepsCoherent_readProof fuel path).bind fun _ _ => keeps_pure trivial

theorem keepsCoherent_readPaths (fuel : ℕ) : ∀ paths : List Str,
    KeepsCoherent (readPaths fuel paths : ServerProg H Outcome)
  | [] => keeps_pure trivial
  | path :: paths => by
    refine (keepsCoherent_readPath fuel path).bind fun r _ => ?_
    cases r with
    | error f => exact keeps_pure trivial
    | ok reply => exact (keepsCoherent_readPaths fuel paths).bind fun _ _ => keeps_pure trivial

theorem keepsCoherent_readFields (fuel : ℕ) (childPrefix : Str) : ∀ paths : List Str,
    KeepsCoherent (readFields fuel childPrefix paths : ServerProg H Outcome)
  | [] => keeps_pure trivial
  | path :: paths => by
    refine (keepsCoherent_readProof fuel path).bind fun r _ => ?_
    cases orNull r with
    | error f => exact keeps_pure trivial
    | ok reply =>
      exact (keepsCoherent_readFields fuel childPrefix paths).bind fun _ _ => keeps_pure trivial

end

omit [Floats] [Runtime] in
theorem keepsCoherent_getQuery (query : Str) :
    KeepsCoherent (getQuery fuel query : ServerProg H Outcome) := by
  refine (keepsCoherent_of_tame (tame_onStore (reads_sqlToProofTree query))).bind fun r _ => ?_
  rcases r with f | ⟨atoms, path⟩
  · cases f with
    | error msg => exact keepsCoherent_getPath fuel query
    | _ => exact keeps_pure trivial
  · refine (keepsCoherent_of_tame (tame_ask (.newECompose atoms) trivial)).bind fun expr _ => ?_
    refine (keepsCoherent_readCached fuel path).bind fun r _ => ?_
    rcases r with f | (_ | reply)
    · exact keeps_pure trivial
    · have hquery : KeepsCoherent (readQuery fuel expr : ServerProg H _) :=
        (keepsCoherent_of_tame (tame_onStore (reads_reduceProofTree fuel expr))).bind
          fun _ _ => keeps_pure trivial
      refine hquery.bind fun r _ => ?_
      rcases r with f | (_ | reply)
      · exact keeps_pure trivial
      · exact keepsCoherent_getPath fuel path
      · exact keeps_pure trivial
    · exact keeps_pure trivial

omit [Floats] [Runtime] in
theorem keepsCoherent_get : KeepsCoherent (get fuel rest : ServerProg H Outcome) := by
  cases rest with
  | nil => exact keeps_pure trivial
  | cons path rest =>
    unfold get
    dsimp only
    split_ifs
    · exact keepsCoherent_getQuery fuel path
    · exact keepsCoherent_getPath fuel path

section

omit [Floats] [Spaces] [Unicode] [Runtime]

theorem keepsCoherent_mget : KeepsCoherent (mget fuel rest : ServerProg H Outcome) := by
  cases rest with
  | nil => exact keeps_pure trivial
  | cons path rest =>
    exact (keepsCoherent_readPaths fuel (path :: rest)).bind fun _ _ => keeps_pure trivial

theorem keepsCoherent_hget : KeepsCoherent (hget fuel rest : ServerProg H Outcome) := by
  unfold hget
  split
  · exact keepsCoherent_readPath fuel _
  · exact keeps_pure trivial

theorem keepsCoherent_hgetall : KeepsCoherent (hgetall fuel rest : ServerProg H Outcome) := by
  cases rest with
  | nil => exact keeps_pure trivial
  | cons key rest =>
    refine (keepsCoherent_of_tame tame_frontierPaths).bind fun paths _ => ?_
    refine (keepsCoherent_of_tame (tame_livePaths _)).bind fun live _ => ?_
    exact (keepsCoherent_readFields fuel _ live).bind fun _ _ => keeps_pure trivial

end

/-! ### Commands -/

omit [Floats] [Spaces] [Printing] [Unicode] [Runtime] in
theorem keeps_liveAtom : Keeps (shardedStep H) Coherent (liveAtom path)
    fun atom => ∀ a, atom = some a → ∃ v, a.expr = .eConst v := by
  intro s hs
  refine ⟨(keepsCoherent_of_tame (tame_liveAtom path) s hs).1, fun a ha => ?_⟩
  rw [run_liveAtom, Option.filter_eq_some_iff] at ha
  exact hs.const a (hs.store.logged ha.1)

omit [DecidableEq H] [Hashing H] [Floats] [Spaces] [Printing] [Unicode] [Runtime] in
theorem tame_appendAgain {e : Expr Ref H} (he : ∃ v, e = .eConst v) (path : Str) (parents : List H)
    (t : Time) : (appendAtom e path parents t).CallsOnly Tame := by
  obtain ⟨v, rfl⟩ := he
  exact tame_ask (.store ⟨.given, .appendAtom (.eConst v) path parents t⟩) trivial

section

omit [Floats] [Spaces] [Printing] [Unicode] [Runtime]

theorem keepsCoherent_expire : KeepsCoherent (expire rest : ServerProg H Outcome) := by
  unfold expire
  split
  · rename_i path n _
    cases parseInt n with
    | none => exact keeps_pure trivial
    | some n =>
      dsimp only
      split_ifs
      · exact keeps_pure trivial
      · refine (keeps_liveAtom path).bind fun atom hconst => ?_
        cases atom with
        | none => exact keeps_pure trivial
        | some cur =>
          refine keepsCoherent_of_tame (callsOnly_bind (fun now => ?_) (tame_ask .now trivial))
          refine callsOnly_bind (fun r => ?_) (tame_appendAgain (hconst cur rfl) _ _ _)
          cases r <;> exact callsOnly_pure _ _
  · exact keeps_pure trivial

theorem keepsCoherent_pexpire : KeepsCoherent (pexpire rest : ServerProg H Str) := by
  unfold pexpire
  split
  · rename_i key ms _
    cases parseInt ms with
    | none => exact keeps_pure trivial
    | some ms =>
      dsimp only
      split_ifs
      · exact keeps_pure trivial
      · refine (keeps_liveAtom key).bind fun atom hconst => ?_
        cases atom with
        | none => exact keeps_pure trivial
        | some cur =>
          refine keepsCoherent_of_tame (callsOnly_bind (fun now => ?_) (tame_ask .now trivial))
          exact callsOnly_bind (fun _ => callsOnly_pure _ _) (tame_appendAgain (hconst cur rfl) _ _ _)
  · exact keeps_pure trivial

theorem keepsCoherent_persist : KeepsCoherent (persist rest : ServerProg H Str) := by
  unfold persist
  split
  · rename_i key _
    refine (keeps_liveAtom key).bind fun atom hconst => ?_
    cases atom with
    | none => exact keeps_pure trivial
    | some cur =>
      dsimp only
      split_ifs
      · exact keeps_pure trivial
      · exact keepsCoherent_of_tame (callsOnly_bind (fun _ => callsOnly_pure _ _)
          (tame_appendAgain (hconst cur rfl) _ _ _))
  · exact keeps_pure trivial

end

omit [Floats] [Spaces] [Printing] [Unicode] [Runtime] in
theorem keepsCoherent_unlessStale {p : ServerProg H Outcome} (hp : KeepsCoherent p) :
    KeepsCoherent (unlessStale p) := by
  refine (keepsCoherent_of_tame (tame_ask .staleRefused trivial)).bind fun stale _ => ?_
  cases stale with
  | some msg => exact keeps_pure trivial
  | none => exact hp

theorem keepsCoherent_runExtended (cmd : ExtendedCommand) (rest : List Str) :
    KeepsCoherent (runExtended cmd rest : ServerProg H Outcome) := by
  have hcmd : KeepsCoherent (handleExtended cmd rest : ServerProg H Str) := by
    cases hre : reappends cmd with
    | false => exact keepsCoherent_of_tame (tame_handleExtended hre rest)
    | true =>
      cases cmd
      case pexpire => exact keepsCoherent_pexpire rest
      case persist => exact keepsCoherent_persist rest
      all_goals cases hre
  have hreply := hcmd.bind (R := fun _ : Outcome => True)
    (f := fun reply => pure (.ok reply)) fun _ _ => keeps_pure trivial
  unfold runExtended
  dsimp only
  split_ifs
  · exact keepsCoherent_unlessStale hreply
  · exact hreply

omit [Floats] [Runtime] in
theorem keepsCoherent_runCore (cmd : CoreCommand) (rest : List Str) :
    KeepsCoherent (runCore fuel cmd rest : ServerProg H Outcome) := by
  cases cmd with
  | ping => exact keeps_pure trivial
  | set => exact keepsCoherent_of_tame (tame_set rest)
  | get => exact keepsCoherent_unlessStale (keepsCoherent_get fuel rest)
  | del =>
    cases rest with
    | nil => exact keeps_pure trivial
    | cons path paths =>
      exact keepsCoherent_of_tame (callsOnly_bind (fun _ => callsOnly_pure _ _) (tame_deletePaths _))
  | exists' =>
    cases rest with
    | nil => exact keeps_pure trivial
    | cons path paths =>
      exact keepsCoherent_of_tame (callsOnly_bind (fun _ => callsOnly_pure _ _) (tame_countLive _))
  | dbsize => exact keepsCoherent_of_tame tame_dbsize
  | mget => exact keepsCoherent_unlessStale (keepsCoherent_mget fuel rest)
  | mset => exact keepsCoherent_of_tame (tame_mset rest)
  | hset => exact keepsCoherent_of_tame (tame_hset rest)
  | hget => exact keepsCoherent_unlessStale (keepsCoherent_hget fuel rest)
  | hgetall => exact keepsCoherent_unlessStale (keepsCoherent_hgetall fuel rest)
  | expire => exact keepsCoherent_expire rest
  | ttl => exact keepsCoherent_of_tame (tame_ttl rest)

theorem keepsCoherent_handleCommand (args : List Str) :
    KeepsCoherent (handleCommand fuel args : ServerProg H Outcome) := by
  cases args with
  | nil => exact keeps_pure trivial
  | cons name rest =>
    unfold handleCommand
    dsimp only
    split
    · exact keepsCoherent_runCore fuel _ rest
    · exact keepsCoherent_runExtended _ rest
    · exact keeps_pure trivial

/-- **Every server that a run can reach is coherent.** -/
theorem Server.Reachable.coherent (h : s.Reachable) : Coherent s := by
  obtain ⟨maxBytes, now, hrun⟩ := h
  induction hrun with
  | refl => exact coherent_new maxBytes now
  | tail _ hstep ih =>
    cases hstep with
    | command fuel args => exact (keepsCoherent_handleCommand fuel args _ ih).1
    | tick t ht => exact ih.sameLog (ih.store.step (.tick t ht)) rfl
    | sweep => exact ih.sameLog (ih.store.step .sweep) rfl
    | health stale => exact ⟨ih.store, ih.const, ih.proofs⟩

/-! ### What a `GET` replies -/

/-- The value that a read of a path with the current value `v` gives: only for the empty path is it that of
the cached proof. -/
def Server.served (s : Server (World Ref H) H) (path : Str) (v : Value Ref) : Value Ref :=
  if path = [] then ((s.proofCache.get (queryHash path)).1.map (·.value)).getD v else v

omit [Floats] [Spaces] [Unicode] [Runtime] in
theorem Coherent.run_readProof (hs : Coherent s) (hd : (s.store.log.map (·.hash)).Nodup) {path : Str}
    (hquery : ∀ p, (queryHash p : H) = queryHash path → p = path) {a : CausalAtom Ref H}
    (ha : s.store.current path = some a) {v : Value Ref} (he : a.expr = .eConst v) (fuel : ℕ) :
    ((readProof (fuel + 1) path).run (shardedStep H) s).1 = .ok (formatValue (s.served path v)) := by
  have hV := hs.constView
  unfold readProof Server.served
  rw [run_bind]
  cases hproof : (s.proofCache.get (queryHash path)).1 with
  | some proof =>
    obtain ⟨hres, -⟩ := hs.run_readCached (fuel + 1) hproof
    obtain ⟨p, hkey, hcached⟩ := hs.proofs.of_get hproof
    obtain rfl := hquery p hkey.symm
    rw [hres]
    by_cases hp : p = []
    · subst hp
      rw [hcached.eval_reduce_nil]
      rfl
    · rw [hcached.eval_reduce hV hd hp ha he, if_neg hp]
      rfl
  | none =>
    rw [run_readCached_none (fuel + 1) hproof]
    obtain ⟨hres, -⟩ := (hs.getProof (queryHash path)).run_readComposed (fuel + 1) path
    rw [hres, eval_composeProof_const ha (hV.paths path a ha) he]
    split_ifs <;> rfl

theorem handle_get (s : Server (World Ref H) H) (fuel : ℕ) {name key : Str} (more : List Str)
    (hname : toUpper name = str "GET") (hkey : isSelect key = false) (hstale : s.stale = none) :
    s.handle (shardedBackend H) fuel (name :: key :: more) = (getPath fuel key).run (shardedStep H) s := by
  have hcore : coreNames.lookup (str "GET") = some .get := by decide
  unfold Server.handle handleCommand
  simp only [hname, hcore, runCore, unlessStale, get, hkey, run_bind, ServerOp.ask, run_ask, Server.step,
    hstale]
  rfl

/-- A `GET` that finds a live atom replies with its value. -/
def AgreesWithStore (s : Server (World Ref H) H) (fuel : ℕ) (name key : Str) (more : List Str) : Prop :=
  ∀ a, s.store.current key = some a → isTombstone a = false →
    ∃ v, a.expr.constValue = some v ∧
      (s.handle (shardedBackend H) fuel (name :: key :: more)).1 = .ok (formatValue v)

/-- A proof of the empty path that is in the cache prints like the current value. -/
def UpToDate (s : Server (World Ref H) H) : Prop :=
  ∀ a v proof, s.store.current [] = some a → isTombstone a = false → a.expr.constValue = some v →
    (s.proofCache.get (queryHash [])).1 = some proof → formatValue proof.value = formatValue v

/-- **Cached reads agree with the store**, after any commands, for all keys but the empty one. The empty
key is read as it was when its proof was composed. -/
theorem get_agrees_iff (hs : s.Reachable) (hd : (s.store.log.map (·.hash)).Nodup) {name key : Str}
    (hname : toUpper name = str "GET") (hkey : isSelect key = false) (hstale : s.stale = none)
    (hquery : ∀ p, (queryHash p : H) = queryHash key → p = key) (fuel : ℕ) (more : List Str) :
    AgreesWithStore s (fuel + 1) name key more ↔ (key = [] → UpToDate s) := by
  have hc := hs.coherent
  -- the reply to a `GET` that finds the atom `a`
  have hreply : ∀ a v, s.store.current key = some a → isTombstone a = false →
      a.expr.constValue = some v →
      (s.handle (shardedBackend H) (fuel + 1) (name :: key :: more)).1 =
        .ok (formatValue (s.served key v)) := by
    intro a v ha hlive hv
    obtain ⟨v', hv'⟩ := hc.const a (hc.store.logged ha)
    rw [hv', Expr.constValue, Option.some.injEq] at hv
    subst hv
    have hs₁ : Coherent { s with store := (s.store.call ⟨.given, .getCurrent key⟩).2 } :=
      hc.sameLog (hc.store.call _) rfl
    have hview := World.shows_view.frame s.store ⟨.given, .getCurrent key⟩ trivial trivial
    have ha₁ : (s.store.call ⟨.given, .getCurrent key⟩).2.view.current key = some a := by
      rw [hview]
      exact ha
    rw [handle_get s _ more hname hkey hstale]
    unfold getPath
    rw [run_bind, run_liveAtom, ha, Option.filter_some, hlive]
    exact hs₁.run_readProof hd hquery ha₁ hv' fuel
  constructor
  · rintro hagrees rfl a v proof ha hlive hv hproof
    obtain ⟨v', hv', hreply'⟩ := hagrees a ha hlive
    obtain rfl := Option.some.inj (hv.symm.trans hv')
    have hboth := (hreply a v ha hlive hv).symm.trans hreply'
    unfold Server.served at hboth
    rw [if_pos rfl, hproof] at hboth
    exact Except.ok.inj hboth
  · intro hup a ha hlive
    obtain ⟨v, hv⟩ := hc.const a (hc.store.logged ha)
    have hv' : a.expr.constValue = some v := by rw [hv]; rfl
    refine ⟨v, hv', (hreply a v ha hlive hv').trans (congrArg Except.ok ?_)⟩
    unfold Server.served
    split_ifs with hnil
    · subst hnil
      cases hproof : (s.proofCache.get (queryHash [])).1 with
      | none => rfl
      | some proof => exact hup rfl a v proof ha hlive hv' hproof
    · rfl

end

section Instances

open Plain

theorem queryHash_injective {p q : Str} (h : (queryHash p : Str) = queryHash q) : p = q :=
  List.append_cancel_right h

def rewritten (key : Str) : Server (World Ref Str) Str :=
  let s₁ := ((Server.new (.init 0 0) 0).handle (shardedBackend Str) 9 [str "SET", key, str "a"]).2
  let s₂ := (s₁.handle (shardedBackend Str) 9 [str "GET", key]).2
  (s₂.handle (shardedBackend Str) 9 [str "SET", key, str "b"]).2

theorem rewritten_reachable (key : Str) : (rewritten key).Reachable :=
  (((Server.reachable_new 0 0).command 9 _).command 9 _).command 9 _

/-- The empty key is read as it was before it was set again. -/
theorem empty_key_is_stale : (rewritten []).Reachable ∧ (rewritten []).stale = none ∧
    ((rewritten []).store.log.map (·.hash)).Nodup ∧
    ((rewritten []).store.current []).map (fun a => (a.expr, isTombstone a)) =
      some (.eConst (.vString (str "b")), false) ∧
    ((rewritten []).handle (shardedBackend Str) 9 [str "GET", []]).1 = .ok (str "$1\r\na\r\n") ∧
    ¬ AgreesWithStore (rewritten []) 9 (str "GET") [] [] := by
  have hcur : ((rewritten []).store.current []).map (fun a => (a.expr, isTombstone a)) =
      some (.eConst (.vString (str "b")), false) := by decide +kernel
  have hreply : ((rewritten []).handle (shardedBackend Str) 9 [str "GET", []]).1 =
      .ok (str "$1\r\na\r\n") := by decide +kernel
  refine ⟨rewritten_reachable [], by decide +kernel, by decide +kernel, hcur, hreply, fun h => ?_⟩
  obtain ⟨a, ha, hpair⟩ := Option.map_eq_some_iff.1 hcur
  obtain ⟨v, hv, hreply'⟩ := h a ha (congrArg Prod.snd hpair)
  have hexpr : a.expr = .eConst (.vString (str "b")) := congrArg Prod.fst hpair
  rw [hexpr] at hv
  obtain rfl := Option.some.inj hv
  rw [hreply] at hreply'
  exact absurd (Except.ok.inj hreply') (by decide)

theorem get_agrees_iff_rewritten : (rewritten (str "k")).Reachable ∧
    ((rewritten (str "k")).store.log.map (·.hash)).Nodup ∧
    AgreesWithStore (rewritten (str "k")) 9 (str "GET") (str "k") [] :=
  ⟨rewritten_reachable _, by decide +kernel,
    (get_agrees_iff (rewritten_reachable (str "k")) (by decide +kernel) (by decide) (by decide)
      (by decide +kernel) (fun _ => queryHash_injective) 8 []).2 fun h => absurd h (by decide)⟩

end Instances

end Wavicle.Resp3
