import Wavicle.Engine.Queries
import Wavicle.Resp3.CachedReads

/-! # Queries and the proof cache

A `GET` of a `SELECT` first looks for a proof under the hash of `sql:table:id`. Nobody puts the proof of a query
there: what is found is the proof of the *key* `sql:table:id`. -/

namespace Wavicle.Resp3

open Lib Wavicle.Core Storage Engine Prog

section

variable {H : Type} [DecidableEq H] [Hashing H] [Floats] [Spaces] [Printing] [Unicode] [Runtime]
  {s : Server (World Ref H) H}

/-! ### Interned composites -/

omit [DecidableEq H] [Hashing H] [Floats] [Spaces] [Printing] [Unicode] [Runtime] in
theorem sound_change {t : InternTable Ref H} (ht : t.Sound) (c : Change) :
    (InternTable.change c t).Sound := by
  intro entry hentry
  obtain ⟨e, he, rfl⟩ := List.mem_map.1 hentry
  have hfits := ht e he
  unfold InternEntry.change
  cases hexpr : e.expr with
  | eConst v => exact ⟨v.change c, rfl, rfl⟩
  | eCompose hs =>
    rw [hexpr] at hfits
    exact hfits
  | _ =>
    rw [hexpr] at hfits
    -- the key is no constant and no composite
    cases hkey : e.key with
    | const bytes =>
      rw [hkey] at hfits
      obtain ⟨v, hv, -⟩ := hfits
      cases hv
    | compose atoms =>
      rw [hkey] at hfits
      cases hfits
    | _ => trivial

omit [Floats] [Spaces] [Printing] [Unicode] [Runtime] in
theorem Server.sound_step (h : s.interned.Sound) : ∀ op : ServerOp H,
    (s.step (shardedBackend H) op).2.interned.Sound
  | .newEConst v => (h.intern (.eConst v)).2
  | .newECompose atoms => (h.intern (.eCompose atoms)).2
  | .change c => sound_change h c
  | .store _ | .loadType _ | .storeType _ _ | .deleteType _ | .clearTypes | .getProof _ | .setProof _ _
  | .updateProof _ _ | .newMap | .newArray _ | .now | .staleRefused | .uptime => h

theorem Server.Reachable.sound (h : s.Reachable) : s.interned.Sound := by
  obtain ⟨maxBytes, now, hrun⟩ := h
  induction hrun with
  | refl => exact List.forall_mem_nil _
  | tail _ hstep ih =>
    cases hstep with
    | command fuel args =>
      exact Prog.run_preserves (I := fun s => s.interned.Sound) (shardedStep H)
        (fun _ op hs => Server.sound_step hs op) (handleCommand fuel args) _ ih
    | tick t ht => exact ih
    | sweep => exact ih
    | health stale => exact ih

/-! ### The reply -/

def compositeReply (V : View Ref H) (fuel : ℕ) (atoms : List H) : Outcome :=
  ((reduceProofTree fuel (.eCompose atoms)).eval V.answer).map formatValue

def Server.uncached (s : Server (World Ref H) H) : Server (World Ref H) H :=
  { s with proofCache := .new 64 2000 }

theorem handle_query (s : Server (World Ref H) H) (fuel : ℕ) {name query : Str} (more : List Str)
    (hname : toUpper name = str "GET") (hquery : isSelect query = true) (hstale : s.stale = none) :
    s.handle (shardedBackend H) fuel (name :: query :: more) =
      (getQuery fuel query).run (shardedStep H) s := by
  have hcore : coreNames.lookup (str "GET") = some .get := by decide
  unfold Server.handle handleCommand
  simp only [hname, hcore, runCore, unlessStale, get, hquery, run_bind, ServerOp.ask, run_ask,
    Server.step, hstale]
  rfl

theorem handle_query_stale (s : Server (World Ref H) H) (fuel : ℕ) {name : Str} (query : Str)
    (more : List Str) {reason : Str} (hname : toUpper name = str "GET") (hstale : s.stale = some reason) :
    (s.handle (shardedBackend H) fuel (name :: query :: more)).1 = failure reason := by
  have hcore : coreNames.lookup (str "GET") = some .get := by decide
  unfold Server.handle handleCommand
  simp only [hname, hcore, runCore, unlessStale, run_bind, ServerOp.ask, run_ask, Server.step, hstale]
  rfl

omit [Floats] [Printing] [Runtime] in
theorem Coherent.composite (hs : Coherent s) (hd : (s.store.log.map (·.hash)).Nodup) {query path : Str}
    {atoms : List H} (h : (sqlToProofTree query).eval s.store.view.answer = .ok (atoms, path)) (fuel : ℕ) :
    ∃ v, (reduceProofTree (fuel + 2) (.eCompose atoms)).eval s.store.view.answer = .ok v := by
  have hV := hs.constView
  refine eval_reduceProofTree_compose hV.const (fun hash a ha => ?_) (fun hash hhash => ?_) fuel
  · exact hV.const a.path a ((hs.store.atom_eq_some hd).1 ha).1
  · obtain ⟨p, a, ha, rfl⟩ := (mem_sqlToProofTree h).2 hash hhash
    have hpath := hV.paths p a ha
    exact ⟨a, (hs.store.atom_eq_some hd).2 ⟨hpath.symm ▸ ha, rfl⟩⟩

/-- What a proof of the key `sql:table:id` makes of the reply. -/
def queryReply (s : Server (World Ref H) H) (fuel : ℕ) (atoms : List H) (path : Str) : Outcome :=
  match (s.proofCache.get (queryHash path)).1 with
  | some proof => .ok (formatValue (rereadValue s.store.view path proof.value))
  | none => compositeReply s.store.view fuel atoms

omit [Floats] [Spaces] [Unicode] [Runtime] in
theorem Coherent.run_readQuery (hs : Coherent s) {fuel : ℕ} {e : Expr Ref H} {v : Value Ref}
    (hv : (reduceProofTree fuel e).eval s.store.view.answer = .ok v) :
    ((readQuery fuel e).run (shardedStep H) s).1 = .ok (some (formatValue v)) := by
  obtain ⟨w, hrun, -⟩ := hs.run_onStore (reads_reduceProofTree fuel e)
  unfold readQuery
  rw [run_bind, hrun, hv]
  rfl

omit [Floats] [Runtime] in
theorem Coherent.run_getQuery (hs : Coherent s) (hsound : s.interned.Sound)
    (hd : (s.store.log.map (·.hash)).Nodup) {query path : Str} {atoms : List H}
    (haccept : (sqlToProofTree query).eval s.store.view.answer = .ok (atoms, path))
    (hquery : ∀ p, (queryHash p : H) = queryHash path → p = path) (fuel : ℕ) :
    ((getQuery (fuel + 2) query).run (shardedStep H) s).1 = queryReply s (fuel + 2) atoms path := by
  obtain ⟨w, hrun, hlog, hview, hs₁⟩ := hs.run_onStore (reads_sqlToProofTree query)
  have hexpr : (s.interned.intern (.eCompose atoms)).1 = .eCompose atoms :=
    (hsound.intern (.eCompose atoms)).1.compose atoms rfl
  unfold getQuery queryReply
  rw [run_bind, hrun, haccept]
  simp only [run_bind, ServerOp.ask, run_ask, Server.step, hexpr]
  -- the server after the composite has been interned
  have hs₂ : Coherent { s with store := w, interned := (s.interned.intern (.eCompose atoms)).2 } :=
    ⟨hs₁.store, hs₁.const, hs₁.proofs⟩
  generalize ht : ({ s with store := w, interned := (s.interned.intern (.eCompose atoms)).2 } :
    Server (World Ref H) H) = t at hs₂ ⊢
  have hproofs : t.proofCache = s.proofCache := by rw [← ht]
  have htview : t.store.view = s.store.view := by rw [← ht, ← hview]
  cases hproof : (s.proofCache.get (queryHash path)).1 with
  | some proof =>
    obtain ⟨p, hkey, hcached⟩ := hs.proofs.of_get hproof
    obtain rfl := hquery p hkey.symm
    rw [← hproofs] at hproof
    have hne := (mem_sqlToProofTree haccept).1
    rw [(hs₂.run_readCached (fuel + 2) hproof).1, htview, hcached.eval_reread hs.constView hd hne]
    rfl
  | none =>
    rw [← hproofs] at hproof
    obtain ⟨v, hv⟩ := hs.composite hd haccept fuel
    rw [run_readCached_none (fuel + 2) hproof]
    dsimp only
    rw [run_bind, (hs₂.getProof (queryHash path)).run_readQuery (htview ▸ hv), compositeReply, hv]
    rfl

/-- A query that is accepted has the same reply with the proof cache and without, and a server that is not
stale replies what the query's own composite reduces to. -/
def QueryAgrees (s : Server (World Ref H) H) (fuel : ℕ) (name query : Str) (more : List Str)
    (atoms : List H) : Prop :=
  (s.handle (shardedBackend H) fuel (name :: query :: more)).1 =
      (s.uncached.handle (shardedBackend H) fuel (name :: query :: more)).1 ∧
    (s.stale = none → (s.handle (shardedBackend H) fuel (name :: query :: more)).1 =
      compositeReply s.store.view fuel atoms)

/-- **Cached and uncached queries agree** exactly if the server is stale, there is no proof of the key
`sql:table:id`, or the value that is read through it prints like that of the composite. -/
theorem query_agrees_iff (hs : s.Reachable) (hd : (s.store.log.map (·.hash)).Nodup)
    {name query path : Str} {atoms : List H} (hname : toUpper name = str "GET")
    (hselect : isSelect query = true)
    (haccept : (sqlToProofTree query).eval s.store.view.answer = .ok (atoms, path))
    (hquery : ∀ p, (queryHash p : H) = queryHash path → p = path) (fuel : ℕ) (more : List Str) :
    QueryAgrees s (fuel + 2) name query more atoms ↔
      (s.stale = none → ∀ proof, (s.proofCache.get (queryHash path)).1 = some proof →
        .ok (formatValue (rereadValue s.store.view path proof.value)) =
          compositeReply s.store.view (fuel + 2) atoms) := by
  unfold QueryAgrees
  cases hstale : s.stale with
  | some reason =>
    rw [handle_query_stale s _ query more hname hstale,
      handle_query_stale s.uncached _ query more hname hstale]
    simp
  | none =>
    have hc := hs.coherent
    have hu : Coherent s.uncached := ⟨hc.store, hc.const, ProofCache.holds_new 2000⟩
    have hempty : (s.uncached.proofCache.get (queryHash path)).1 = none := rfl
    have huncached : (s.uncached.handle (shardedBackend H) (fuel + 2) (name :: query :: more)).1 =
        compositeReply s.store.view (fuel + 2) atoms := by
      rw [handle_query s.uncached _ more hname hselect hstale,
        hu.run_getQuery hs.sound hd haccept hquery, queryReply, hempty]
      rfl
    rw [huncached, handle_query s _ more hname hselect hstale,
      hc.run_getQuery hs.sound hd haccept hquery, queryReply]
    cases (s.proofCache.get (queryHash path)).1 with
    | none => simp
    | some proof => simp

end

section Instances

attribute [local instance] plainHashing plainUnicode plainFloats plainPrinting plainRuntime
local instance querySpaces : Spaces := ⟨(trim · (str " "))⟩

def nameQuery : Str := str "SELECT name FROM users WHERE id = 1"

def serverAfter : List (List Str) → Server (World Ref Str) Str
  | [] => ((Server.new (.init 0 0) 0).handle (shardedBackend Str) 9
      [str "SET", str "users:1:name", str "bob"]).2
  | cmd :: cmds => ((serverAfter cmds).handle (shardedBackend Str) 9 cmd).2

theorem serverAfter_reachable : ∀ cmds, (serverAfter cmds).Reachable
  | [] => (Server.reachable_new 0 0).command 9 _
  | cmd :: cmds => (serverAfter_reachable cmds).command 9 cmd

/-- The key `sql:users:1` has been set and read. -/
def shadowed : Server (World Ref Str) Str :=
  serverAfter [[str "GET", str "sql:users:1"], [str "SET", str "sql:users:1", str "x"]]

def nameAtoms (s : Server (World Ref Str) Str) : Except Fault (List Str × Str) :=
  (sqlToProofTree nameQuery : StoreProg Ref Str _).eval s.store.view.answer

/-- The query is answered with the value of the key. -/
theorem shadowed_query : shadowed.Reachable ∧ (shadowed.store.log.map (·.hash)).Nodup ∧
    shadowed.stale = none ∧ (nameAtoms shadowed).isOk = true ∧
    (shadowed.handle (shardedBackend Str) 9 [str "GET", nameQuery]).1 = .ok (str "$1\r\nx\r\n") ∧
    (shadowed.uncached.handle (shardedBackend Str) 9 [str "GET", nameQuery]).1 = .ok (str "$3\r\nbob\r\n") ∧
    ∀ atoms, ¬ QueryAgrees shadowed 9 (str "GET") nameQuery [] atoms := by
  have hcached : (shadowed.handle (shardedBackend Str) 9 [str "GET", nameQuery]).1 =
      .ok (str "$1\r\nx\r\n") := by decide +kernel
  have huncached : (shadowed.uncached.handle (shardedBackend Str) 9 [str "GET", nameQuery]).1 =
      .ok (str "$3\r\nbob\r\n") := by decide +kernel
  refine ⟨serverAfter_reachable _, by decide +kernel, by decide +kernel, by decide +kernel, hcached, huncached,
    fun atoms h => ?_⟩
  rw [QueryAgrees, hcached, huncached] at h
  exact absurd (Except.ok.inj h.1) (by decide)

theorem query_agrees_iff_name : (serverAfter []).Reachable ∧
    ((serverAfter []).store.log.map (·.hash)).Nodup ∧ ∃ atoms,
    nameAtoms (serverAfter []) = .ok (atoms, str "sql:users:1") ∧
    QueryAgrees (serverAfter []) 9 (str "GET") nameQuery [] atoms := by
  have hd : ((serverAfter []).store.log.map (·.hash)).Nodup := by decide +kernel
  have hpath : (nameAtoms (serverAfter [])).toOption.map Prod.snd = some (str "sql:users:1") := by
    decide +kernel
  have hcold : ((serverAfter []).proofCache.get (queryHash (str "sql:users:1"))).1.isSome = false := by
    decide +kernel
  cases haccept : nameAtoms (serverAfter []) with
  | error f =>
    rw [haccept] at hpath
    cases hpath
  | ok found =>
    obtain ⟨atoms, path⟩ := found
    rw [haccept] at hpath
    obtain rfl : path = str "sql:users:1" := Option.some.inj hpath
    refine ⟨serverAfter_reachable [], hd, atoms, rfl, ?_⟩
    refine (query_agrees_iff (serverAfter_reachable []) hd (by decide) (by decide) haccept
      (fun _ => queryHash_injective) 7 []).2 fun _ proof hproof => ?_
    rw [hproof] at hcold
    cases hcold

end Instances

end Wavicle.Resp3
