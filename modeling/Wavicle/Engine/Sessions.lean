import Wavicle.Engine.Composition
import Wavicle.Engine.Reads
import Wavicle.Storage.Lawful

/-! # Sessions

A proof is composed over a store and then reduced again and again, while others write what is `allowed`: the
life of an entry of the proof cache. -/

namespace Wavicle.Engine

open Lib Wavicle.Core Storage

theorem exists_ok_of_any {ε α : Type} {r : Except ε α} {P : α → Bool}
    (h : r.toOption.any P = true) : ∃ a, r = .ok a ∧ P a = true := by
  cases r with
  | error e => cases h
  | ok a => exact ⟨a, rfl, h⟩

/-- A store, a proof over it, and the store as it was when the proof was last reduced. -/
structure Session (σ ι H : Type) where
  store : σ
  proof : MaterializedProof ι H
  last : σ

section

variable {σ ι H : Type} [Inhabited ι] [DecidableEq H] (S : LawfulStore σ ι H)

/-- No two atoms of the log have the same hash. -/
def Distinct (w : σ) : Prop := ((S.log w).map (·.hash)).Nodup

namespace Session

def compose (fuel : ℕ) (path : Str) (w : σ) : Except Fault (Session σ ι H) :=
  let r := (composeProof fuel path).run S.call w
  r.1.map fun proof => ⟨r.2, proof, w⟩

def reduce (fuel : ℕ) (s : Session σ ι H) : Except Fault (Value ι) × Session σ ι H :=
  let r := (reduceIncremental fuel s.proof).run S.call s.store
  (r.1.1, ⟨r.2, r.1.2, s.store⟩)

def append (expr : Expr ι H) (path : Str) (parents : List H) (expiresAt : Time)
    (s : Session σ ι H) : Session σ ι H :=
  { s with store := (S.call s.store ⟨.given, .appendAtom expr path parents expiresAt⟩).2 }

/-- What happens between two reads of a proof: appends that are allowed, time and reads, and reductions. -/
inductive Step (allowed : Str → Expr ι H → Prop) (s : Session σ ι H) : Session σ ι H → Prop where
  | append (via : Via) (expr : Expr ι H) (path : Str) (parents : List H) (expiresAt : Time)
      (h : allowed path expr) :
      Step allowed s
        { s with store := (S.call s.store ⟨via, .appendAtom expr path parents expiresAt⟩).2 }
  | idle (w : σ) (h : S.Idle s.store w) : Step allowed s { s with store := w }
  | reduce (fuel : ℕ) : Step allowed s (s.reduce S fuel).2

abbrev Run (allowed : Str → Expr ι H → Prop) : Session σ ι H → Session σ ι H → Prop :=
  Relation.ReflTransGen (Step S allowed)

end Session

variable {S}

omit [Inhabited ι] in
theorem run_of_reads {α : Type} {p : StoreProg ι H α} (hp : Reads p) {w : σ} (hw : S.Good w) :
    (p.run S.call w).1 = p.eval (S.view w).answer ∧ S.view (p.run S.call w).2 = S.view w ∧
      S.Good (p.run S.call w).2 ∧ S.log (p.run S.call w).2 = S.log w :=
  Prog.run_eq_eval (I := fun w' => S.Good w' ∧ S.log w' = S.log w) S.call
    (fun w' c hw' hc => ⟨S.shows.answer w' c hw'.1 hc, S.shows.frame w' c hw'.1 hc,
      S.shows.keeps w' c hw'.1 hc, (S.log_read w' c hw'.1 hc).trans hw'.2⟩) p w ⟨hw, rfl⟩ hp

omit [Inhabited ι] in
theorem Distinct.of_suffix {w w' : σ} (h : Distinct S w') (hlog : S.log w <:+ S.log w') : Distinct S w := by
  have hmap : (S.log w).map (·.hash) <:+ (S.log w').map (·.hash) := by
    obtain ⟨l, hl⟩ := hlog
    exact ⟨l.map (·.hash), by rw [← hl, List.map_append]⟩
  exact h.sublist hmap.sublist

namespace Session

variable {allowed : Str → Expr ι H → Prop} {s s' : Session σ ι H}

theorem reduce_spec (hs : S.Good s.store) (fuel : ℕ) :
    (s.reduce S fuel).1 = ((reduceIncremental fuel s.proof).eval (S.view s.store).answer).1 ∧
      (s.reduce S fuel).2.proof = ((reduceIncremental fuel s.proof).eval (S.view s.store).answer).2 ∧
      S.view (s.reduce S fuel).2.store = S.view s.store ∧ S.Good (s.reduce S fuel).2.store ∧
      S.log (s.reduce S fuel).2.store = S.log s.store := by
  obtain ⟨hres, hview, hgood, hlog⟩ := run_of_reads (reads_reduceIncremental fuel s.proof) hs
  exact ⟨by rw [reduce, hres], by rw [reduce, hres], hview, hgood, hlog⟩

theorem Step.good (h : Step S allowed s s') (hs : S.Good s.store) : S.Good s'.store := by
  cases h with
  | append via expr path parents expiresAt _ => exact (S.append _ hs via expr path parents expiresAt).1
  | idle w h => exact (S.idle _ _ hs h).1
  | reduce fuel => exact (reduce_spec hs fuel).2.2.2.1

theorem Step.log (h : Step S allowed s s') (hs : S.Good s.store) : S.log s.store <:+ S.log s'.store := by
  cases h with
  | append via expr path parents expiresAt _ =>
    exact (S.append _ hs via expr path parents expiresAt).2.1
  | idle w h => exact (S.idle _ _ hs h).2.1
  | reduce fuel => exact (reduce_spec hs fuel).2.2.2.2.symm ▸ List.suffix_rfl

theorem Step.current (h : Step S allowed s s') (hs : S.Good s.store) (hd : Distinct S s'.store)
    {p : Str} {a : CausalAtom ι H} (ha : (S.view s'.store).current p = some a) :
    (S.view s.store).current p = some a ∨ ∃ e, allowed p e ∧ Alike e a.expr := by
  cases h with
  | append via expr path parents expiresAt hall =>
    rcases (S.append _ hs via expr path parents expiresAt).2.2 hd p a ha with hold | ⟨rfl, halike⟩
    · exact Or.inl hold
    · exact Or.inr ⟨expr, hall, halike⟩
  | idle w h => exact Or.inl ((S.idle _ _ hs h).2.2 p a ha)
  | reduce fuel => exact Or.inl (by rwa [(reduce_spec hs fuel).2.2.1] at ha)

theorem Step.proof (h : Step S allowed s s') (hs : S.Good s.store) : s'.proof = s.proof ∧ s'.last = s.last ∨
      ∃ fuel, s'.proof = ((reduceIncremental fuel s.proof).eval (S.view s.store).answer).2 ∧
        S.view s'.store = S.view s.store ∧ s'.last = s.store := by
  cases h with
  | append => exact Or.inl ⟨rfl, rfl⟩
  | idle => exact Or.inl ⟨rfl, rfl⟩
  | reduce fuel =>
    obtain ⟨-, hproof, hview, -⟩ := reduce_spec hs fuel
    exact Or.inr ⟨fuel, hproof, hview, rfl⟩

theorem Run.good (h : Run S allowed s s') (hs : S.Good s.store) : S.Good s'.store := by
  induction h with
  | refl => exact hs
  | tail _ hstep ih => exact hstep.good ih

theorem Run.log (h : Run S allowed s s') (hs : S.Good s.store) : S.log s.store <:+ S.log s'.store := by
  induction h with
  | refl => exact List.suffix_rfl
  | tail hrun hstep ih => exact ih.trans (hstep.log (Run.good hrun hs))

/-- **Run rule**: what every step from and to a collision-free store preserves, every run does. -/
theorem Run.induct {P : Session σ ι H → Prop} (h : Run S allowed s s') (hs : S.Good s.store)
    (hd : Distinct S s'.store) (start : P s)
    (step : ∀ r r', S.Good r.store → Distinct S r'.store → Step S allowed r r' → P r → P r') : P s' := by
  induction h with
  | refl => exact start
  | tail hrun hstep ih =>
    have hgood := Run.good hrun hs
    exact step _ _ hgood hd hstep (ih (hd.of_suffix (hstep.log hgood)))

/-! ### Constants and composites -/

/-- The proof keeps the tree it was composed with, and the paths of the tree stay plain. -/
structure Keeps (S : LawfulStore σ ι H) (proof₀ : MaterializedProof ι H) (s : Session σ ι H) :
    Prop where
  kept : Kept s.proof
  shape : s.proof.rootNode.map NodeInfo.key = proof₀.rootNode.map NodeInfo.key
  index : s.proof.pathToNode = proof₀.pathToNode
  plain : ∀ p ∈ proof₀.paths, ∀ a, (S.view s.store).current p = some a → IsPlain a.expr

end Session

omit [Inhabited ι] [DecidableEq H] in
theorem IsPlain.alike {e e' : Expr ι H} (he : IsPlain e) (h : Alike e e') : IsPlain e' := by
  cases e with
  | eConst v =>
    obtain ⟨u, rfl, -⟩ := h.const v rfl
    exact trivial
  | eCompose hs =>
    rw [h.compose hs rfl]
    exact trivial
  | _ => exact he.elim

omit [DecidableEq H] in
theorem Consistent.plain (n : ProofNode ι H) (hn : Consistent n) :
    ∀ info ∈ n.labels, IsPlain info.expr := by
  induction n using Rose.induct with
  | node info cs ih =>
    cases hn with
    | node _ _ below plain own =>
      intro i hi
      rw [Rose.labels_node] at hi
      rcases List.mem_cons.1 hi with rfl | hi
      · exact plain
      · obtain ⟨c, hc, hi⟩ := List.mem_flatMap.1 hi
        exact ih c hc (below c hc) i hi

omit [DecidableEq H] in
theorem plain_of_consistent {V : View ι H} {n : ProofNode ι H} (hn : Consistent n)
    (hV : ∀ p ∈ n.labels.map (·.sourcePath), ∀ a, V.current p = some a → IsPlain a.expr) : Plain V n := by
  intro info hinfo
  unfold NodeInfo.refreshed
  split_ifs
  · split
    · rename_i a ha
      exact hV _ (List.mem_map.2 ⟨info, hinfo, rfl⟩) a ha
    · exact hn.plain n info hinfo
  · exact hn.plain n info hinfo

namespace Session

variable {allowed : Str → Expr ι H → Prop} {s s' : Session σ ι H} {proof₀ : MaterializedProof ι H}

theorem Keeps.paths (h : Keeps S proof₀ s) : s.proof.paths = proof₀.paths :=
  map_path_of_map_key h.shape

theorem Keeps.plain_marked (h : Keeps S proof₀ s) :
    Plain (S.view s.store) (s.proof.marked (S.view s.store)) := by
  refine plain_of_consistent (consistent_marked h.kept.consistent _ _) ?_
  rw [MaterializedProof.marked, map_path_of_map_key (map_key_marked s.proof.rootNode _ _)]
  change ∀ p ∈ s.proof.paths, _
  rw [h.paths]
  exact h.plain

theorem Keeps.map_path_marked (h : Keeps S proof₀ s) (V : View ι H) :
    (s.proof.marked V).map (·.sourcePath) = proof₀.rootNode.map (·.sourcePath) :=
  map_path_eq_of_map_key ((map_key_marked _ _ _).trans h.shape)

theorem Keeps.reduce_fst (h : Keeps S proof₀ s) (hs : S.Good s.store) (fuel : ℕ) : (s.reduce S fuel).1 =
      .ok (reduced (S.view s.store) (s.proof.marked (S.view s.store))).cached := by
  rw [(reduce_spec hs fuel).1, h.kept.eval_fst h.plain_marked]

theorem Keeps.step (hallowed : ∀ p e, p ∈ proof₀.paths → allowed p e → IsPlain e)
    (hs : S.Good s.store) (hd : Distinct S s'.store) (h : Step S allowed s s')
    (hk : Keeps S proof₀ s) : Keeps S proof₀ s' := by
  have hplain : ∀ p ∈ proof₀.paths, ∀ a, (S.view s'.store).current p = some a →
      IsPlain a.expr := by
    intro p hp a ha
    rcases h.current hs hd ha with hold | ⟨e, hall, halike⟩
    · exact hk.plain p hp a hold
    · exact (hallowed p e hp hall).alike halike
  rcases h.proof hs with ⟨hproof, -⟩ | ⟨fuel, hproof, -, -⟩
  · exact ⟨hproof ▸ hk.kept, hproof ▸ hk.shape, hproof ▸ hk.index, hplain⟩
  · refine ⟨hproof ▸ hk.kept.eval_snd hk.plain_marked fuel, ?_, ?_, hplain⟩
    · rw [hproof]
      rcases eval_reduceIncremental hk.kept.addr_nodup hk.plain_marked fuel with
        ⟨-, heval⟩ | ⟨-, stats, -, heval⟩
      · rw [heval]
        exact hk.shape
      · rw [heval]
        exact (map_key_after _ hk.plain_marked).trans hk.shape
    · rw [hproof]
      rcases eval_reduceIncremental hk.kept.addr_nodup hk.plain_marked fuel with
        ⟨-, heval⟩ | ⟨-, stats, -, heval⟩ <;>
      · rw [heval]
        exact hk.index

theorem compose_store {fuel : ℕ} {path : Str} {w : σ} (hw : S.Good w) (h : compose S fuel path w = .ok s) :
    (composeProof fuel path).eval (S.view w).answer = .ok s.proof ∧ S.view s.store = S.view w ∧
      S.Good s.store ∧ S.log s.store = S.log w ∧ s.last = w := by
  obtain ⟨hres, hview, hgood, hlog⟩ := run_of_reads (reads_composeProof fuel path) hw
  unfold compose at h
  simp only [hres] at h
  cases heval : (composeProof fuel path).eval (S.view w).answer with
  | error f =>
    rw [heval] at h
    cases h
  | ok proof =>
    rw [heval] at h
    obtain rfl := Except.ok.inj h
    exact ⟨rfl, hview, hgood, hlog, rfl⟩

theorem compose_of_eval {fuel : ℕ} {path : Str} {w : σ} (hw : S.Good w) {proof : MaterializedProof ι H}
    (h : (composeProof fuel path).eval (S.view w).answer = .ok proof) :
    ∃ s, compose S fuel path w = .ok s ∧ s.proof = proof := by
  have hres := (run_of_reads (reads_composeProof fuel path) hw).1
  unfold compose
  simp only [hres, h]
  exact ⟨_, rfl, rfl⟩

/-- **Run rule for a cached proof**: what holds after its composition and is preserved by every step
holds for as long as it is in the cache. -/
theorem Run.of_compose {P : Session σ ι H → Prop} {fuel : ℕ} {path : Str} {w : σ}
    {s₀ : Session σ ι H} (hw : S.Good w) (hcompose : compose S fuel path w = .ok s₀)
    (hrun : Run S allowed s₀ s) (hd : Distinct S s.store)
    (start : ∀ t, Composed (S.view w) path t s₀.proof → S.view s₀.store = S.view w →
      S.Good s₀.store → s₀.last = w → P s₀)
    (step : ∀ r r', S.Good r.store → Distinct S r'.store → Step S allowed r r' → P r → P r') :
    P s ∧ S.Good s.store ∧ ∃ t, Composed (S.view w) path t s₀.proof := by
  obtain ⟨heval, hview, hgood, hlog, hlast⟩ := compose_store hw hcompose
  have hd₀ : Distinct S w := hd.of_suffix (hlog ▸ hrun.log hgood)
  obtain ⟨t, ht⟩ := composeProof_spec (S.pathsAgree w hw hd₀) heval
  exact ⟨hrun.induct hgood hd (start t ht hview hgood hlast) step, hrun.good hgood, t, ht⟩

end Session

theorem Composed.keeps {s : Session σ ι H} {w : σ} {path : Str} {t : ProofNode ι H}
    (h : Composed (S.view w) path t s.proof) (hview : S.view s.store = S.view w) :
    s.Keeps S s.proof where
  kept := h.kept
  shape := rfl
  index := rfl
  plain p hp a ha := by
    rw [hview] at ha
    obtain ⟨b, hb, hplain⟩ := h.plain_paths p hp
    rw [ha] at hb
    obtain rfl := Option.some.inj hb
    exact hplain

theorem Session.Keeps.sourcePath_marked {s s₀ : Session σ ι H} (h : s.Keeps S s₀.proof)
    {V : View ι H} {path : Str} {t : ProofNode ι H} (ht : Composed V path t s₀.proof)
    (V' : View ι H) : (s.proof.marked V').label.sourcePath = path := by
  have hlabel := congrArg Rose.label ((h.map_path_marked V').trans ht.map_path)
  rwa [Rose.label_map, Rose.label_map, ht.path_eq] at hlabel

/-- Constants and composites are written to the paths of the tree, and anything elsewhere. Nothing but
constants and composites is ever appended in this repository. -/
def PlainWrite (paths : List Str) (p : Str) (e : Expr ι H) : Prop := p ∈ paths → IsPlain e

theorem Session.Keeps.of_run {fuel : ℕ} {path : Str} {w₀ : σ} {s₀ s : Session σ ι H}
    (hw₀ : S.Good w₀) (hcompose : Session.compose S fuel path w₀ = .ok s₀)
    (hrun : Session.Run S (PlainWrite s₀.proof.paths) s₀ s) (hd : Distinct S s.store) :
    s.Keeps S s₀.proof ∧ S.Good s.store ∧ ∃ t, Composed (S.view w₀) path t s₀.proof :=
  hrun.of_compose hw₀ hcompose hd (fun _ ht hview _ _ => ht.keeps hview)
    fun _ _ hgood hd hstep hk => Session.Keeps.step (fun _ _ hp hall => hall hp) hgood hd hstep hk

end

end Wavicle.Engine
