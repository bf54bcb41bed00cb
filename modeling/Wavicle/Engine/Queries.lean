import Wavicle.Engine.Tree

/-! # Queries over constants

When all atoms are constants, the composite that a query stands for has a value: its atoms are current, and
a hash that leads to an atom leads to a constant. -/

namespace Wavicle.Engine

open Lib Wavicle.Core Storage

variable {ι H : Type} [Inhabited ι] [DecidableEq H] [Hashing H] {V : View ι H}

/-! ### Reducing a composite of constants -/

theorem eval_reduceTree_const (v : Value ι) (fuel : ℕ) (cache : NodeCache ι H) : ∃ u cache',
    (reduceTree (fuel + 1) (.eConst v) cache).eval V.answer = (.ok u, cache') := by
  unfold reduceTree
  cases cache.lookup (Expr.eConst v : Expr ι H).exprHash with
  | some u => exact ⟨u, cache, rfl⟩
  | none => exact ⟨v, _, rfl⟩

omit [Inhabited ι] [Hashing H] in
theorem eval_resolveAtom {h : H} {b : CausalAtom ι H} (hb : V.atom h = some b)
    (hcur : ∀ p a, V.current p = some a → ∃ v, a.expr = .eConst v)
    (hatom : ∀ h a, V.atom h = some a → ∃ v, a.expr = .eConst v) : ∃ a v,
    (resolveAtom h : StoreProg ι H _).eval V.answer = some a ∧ a.expr = .eConst v := by
  unfold resolveAtom
  simp only [Prog.eval_bind, Prog.eval_ask, View.answer_getAtom, hb]
  obtain ⟨v, hv⟩ := hatom h b hb
  split_ifs with hpath
  · simp only [Prog.eval_bind, Prog.eval_ask, View.answer_getCurrent]
    cases ha : V.current b.path with
    | none => exact ⟨b, v, rfl, hv⟩
    | some a =>
      obtain ⟨u, hu⟩ := hcur b.path a ha
      exact ⟨a, u, rfl, hu⟩
  · exact ⟨b, v, hb, hv⟩

theorem eval_reduceAtoms_const (hcur : ∀ p a, V.current p = some a → ∃ v, a.expr = .eConst v)
    (hatom : ∀ h a, V.atom h = some a → ∃ v, a.expr = .eConst v) (fuel : ℕ) : ∀ {hs : List H}
    (_ : ∀ h ∈ hs, ∃ b, V.atom h = some b) (cache : NodeCache ι H), ∃ fields cache',
    (reduceAtoms (reduceTree (fuel + 1)) hs cache).eval V.answer = (.ok fields, cache')
  | [], _, cache => ⟨[], cache, rfl⟩
  | h :: hs, hall, cache => by
    obtain ⟨b, hb⟩ := hall h (.head _)
    obtain ⟨a, v, hres, hv⟩ := eval_resolveAtom hb hcur hatom
    obtain ⟨u, cache₁, hred⟩ := eval_reduceTree_const (V := V) v fuel cache
    obtain ⟨fields, cache₂, hrest⟩ := eval_reduceAtoms_const hcur hatom fuel
      (List.forall_mem_cons.1 hall).2 cache₁
    refine ⟨(a.path, u) :: fields, cache₂, ?_⟩
    unfold reduceAtoms
    simp only [Prog.eval_bind, hres, hv, hred, hrest, Prog.eval_pure]
    rfl

theorem eval_reduceProofTree_compose (hcur : ∀ p a, V.current p = some a → ∃ v, a.expr = .eConst v)
    (hatom : ∀ h a, V.atom h = some a → ∃ v, a.expr = .eConst v) {hs : List H}
    (hall : ∀ h ∈ hs, ∃ b, V.atom h = some b) (fuel : ℕ) : ∃ v,
    (reduceProofTree (fuel + 2) (.eCompose hs)).eval V.answer = .ok v := by
  obtain ⟨fields, cache, hatoms⟩ := eval_reduceAtoms_const hcur hatom fuel hall ∅
  refine ⟨newRecord fields, ?_⟩
  unfold reduceProofTree reduceTree
  rw [show (∅ : NodeCache ι H).lookup (Expr.eCompose hs : Expr ι H).exprHash = none from
    AList.lookup_empty _]
  simp only [Prog.eval_bind, hatoms, Prog.eval_pure]
  rfl

/-! ### The atoms of a query -/

section

omit [Inhabited ι] [Hashing H]

theorem eval_queryAtoms (V : View ι H) (q : Query) : ∀ cols : List Str,
    (∃ hs, (queryAtoms q cols : StoreProg ι H _).eval V.answer = .ok hs ∧
      hs.map some = cols.map fun col => V.currentHash (q.path col)) ∨
    (∃ msg, (queryAtoms q cols : StoreProg ι H _).eval V.answer = .error (.error msg)) ∧
      ∃ col ∈ cols, V.current (q.path col) = none
  | [] => .inl ⟨[], rfl, rfl⟩
  | col :: cols => by
    unfold queryAtoms
    simp only [Prog.eval_bind, Prog.eval_ask, View.answer_getCurrent]
    cases hcol : V.current (q.path col) with
    | none => exact .inr ⟨⟨_, rfl⟩, col, List.mem_cons_self, hcol⟩
    | some atom =>
      simp only [Prog.eval_bind]
      rcases eval_queryAtoms V q cols with ⟨hs, heval, hhs⟩ | ⟨⟨msg, heval⟩, c, hc, hnone⟩
      · refine .inl ⟨atom.hash :: hs, by rw [heval]; rfl, ?_⟩
        rw [List.map_cons, List.map_cons, hhs, View.currentHash, hcol]
        rfl
      · exact .inr ⟨⟨msg, by rw [heval]; rfl⟩, c, List.mem_cons_of_mem _ hc, hnone⟩

theorem mem_queryAtoms {q : Query} {cols : List Str} {hs : List H}
    (heval : (queryAtoms q cols : StoreProg ι H _).eval V.answer = .ok hs) :
    ∀ h ∈ hs, ∃ p a, V.current p = some a ∧ a.hash = h := by
  intro h hh
  rcases eval_queryAtoms V q cols with ⟨hs', heval', hhs⟩ | ⟨⟨msg, heval'⟩, -⟩
  · obtain rfl := Except.ok.inj (heval.symm.trans heval')
    have hmem : some h ∈ cols.map fun col => V.currentHash (q.path col) :=
      hhs ▸ List.mem_map_of_mem hh
    obtain ⟨col, -, hcol⟩ := List.mem_map.1 hmem
    obtain ⟨a, ha, hhash⟩ := Option.map_eq_some_iff.1 hcol
    exact ⟨q.path col, a, ha, hhash⟩
  · rw [heval'] at heval
    cases heval

theorem mem_sqlToProofTree [Unicode] [Spaces] {query path : Str} {hs : List H}
    (h : (sqlToProofTree query : StoreProg ι H _).eval V.answer = .ok (hs, path)) :
    path ≠ [] ∧ ∀ hash ∈ hs, ∃ p a, V.current p = some a ∧ a.hash = hash := by
  unfold sqlToProofTree at h
  cases hq : parseQuery query with
  | error f =>
    rw [hq] at h
    cases h
  | ok q =>
    rw [hq] at h
    simp only [Prog.eval_bind] at h
    cases hatoms : (queryAtoms q q.cols : StoreProg ι H _).eval V.answer with
    | error f =>
      rw [hatoms] at h
      cases h
    | ok atoms =>
      rw [hatoms] at h
      cases atoms with
      | nil => cases h
      | cons a atoms =>
        obtain ⟨rfl, rfl⟩ := Prod.mk.inj (Except.ok.inj h)
        refine ⟨?_, mem_queryAtoms hatoms⟩
        simp [Query.primaryPath, str]

end

end Wavicle.Engine
