import Wavicle.Engine.Chains

/-! # What an expression denotes

The hashes of a composite stand for paths (`lists`), and the paths for their current atoms: `Denotes`. A node
that is read again takes over a new expression but keeps its children. -/

namespace Wavicle.Engine

open Lib Wavicle.Core Storage

section

variable {ι H : Type} [Inhabited ι] [DecidableEq H]

/-- The value of an expression on the current frontier. It has one if it is built from constants and
composites and every path it depends on has a current atom. -/
inductive Denotes (V : View ι H) (lists : List H → List Str → Prop) : Expr ι H → Value ι → Prop where
  | const (v : Value ι) : Denotes V lists (.eConst v) v
  | compose (hs : List H) (ps : List Str) (atom : Str → CausalAtom ι H) (value : Str → Value ι)
      (listed : lists hs ps)
      (current : ∀ p ∈ ps, V.current p = some (atom p))
      (sub : ∀ p ∈ ps, Denotes V lists (atom p).expr (value p)) :
      Denotes V lists (.eCompose hs) (newRecord (ps.map fun p => (p, value p)))

/-- The tree as it is marked for a reduction agrees with the frontier: a node that the reduction makes
a constant holds what its path denotes, and one that it makes a composite has children for exactly
the paths that its current expression lists (or its path has a constant that happens to be the very
record its children spell out). -/
inductive Agrees (V : View ι H) (lists : List H → List Str → Prop) : ProofNode ι H → Prop where
  | const (info : NodeInfo ι H) (cs : List (ProofNode ι H)) (a : CausalAtom ι H) (v : Value ι)
      (expr : (info.refreshed V).expr = .eConst v) (current : V.current info.sourcePath = some a)
      (denotes : Denotes V lists a.expr v) : Agrees V lists (.node info cs)
  | compose (info : NodeInfo ι H) (cs : List (ProofNode ι H)) (a : CausalAtom ι H) (hs hs' : List H)
      (ps : List Str) (expr : (info.refreshed V).expr = .eCompose hs)
      (current : V.current info.sourcePath = some a) (new : a.expr = .eCompose hs')
      (listed : lists hs' ps)
      (same : ∀ k, k ∈ ps ↔ k ∈ cs.map (·.label.sourcePath))
      (sub : ∀ k c, lastChild cs k = some c → Agrees V lists c) : Agrees V lists (.node info cs)
  | record (info : NodeInfo ι H) (cs : List (ProofNode ι H)) (a : CausalAtom ι H) (hs : List H)
      (expr : (info.refreshed V).expr = .eCompose hs) (current : V.current info.sourcePath = some a)
      (new : a.expr = .eConst (newRecord ((cs.map (reduced V)).map ProofNode.field))) :
      Agrees V lists (.node info cs)

/-! ### Records -/

omit [Inhabited ι] in
theorem sorted_foldl_put : ∀ (fields m : List (Str × Value ι)), SortedMap.Sorted m →
    SortedMap.Sorted (fields.foldl (fun m f => SortedMap.put f.1 f.2 m) m)
  | [], _, h => h
  | f :: fields, _, h => sorted_foldl_put fields _ (h.put f.1 f.2)

theorem newRecord_eq_iff (fields fields' : List (Str × Value ι)) : newRecord fields = newRecord fields' ↔
      ∀ k, (fields.reverse.find? fun f => f.1 = k).map (·.2) =
        (fields'.reverse.find? fun f => f.1 = k).map (·.2) := by
  unfold newRecord
  rw [Value.vRecord.injEq]
  constructor
  · rintro ⟨-, h⟩ k
    have hk := congrArg (List.lookup k) h
    rw [lookup_foldl_put, lookup_foldl_put] at hk
    simpa using hk
  · intro h
    refine ⟨rfl, (sorted_foldl_put fields [] List.Pairwise.nil).ext
      (sorted_foldl_put fields' [] List.Pairwise.nil) fun k => ?_⟩
    rw [lookup_foldl_put, lookup_foldl_put, h k]

omit [Inhabited ι] in
theorem find_map_value (ps : List Str) (value : Str → Value ι) (k : Str) :
    ((ps.map fun p => (p, value p)).reverse.find? fun f => f.1 = k).map (·.2) =
      if k ∈ ps then some (value k) else none := by
  rw [← List.map_reverse, List.find?_map]
  by_cases hk : k ∈ ps
  · rw [if_pos hk]
    have hfind : (ps.reverse.find? ((fun f : Str × Value ι => decide (f.1 = k)) ∘
        fun p => (p, value p))).isSome := by
      rw [List.find?_isSome]
      exact ⟨k, List.mem_reverse.2 hk, by simp⟩
    obtain ⟨p, hp⟩ := Option.isSome_iff_exists.1 hfind
    have hpk := List.find?_some hp
    simp only [Function.comp_apply, decide_eq_true_eq] at hpk
    rw [hp, hpk]
    rfl
  · rw [if_neg hk]
    have hfind : ps.reverse.find? ((fun f : Str × Value ι => decide (f.1 = k)) ∘
        fun p => (p, value p)) = none := by
      rw [List.find?_eq_none]
      intro p hp
      simp only [Function.comp_apply, decide_eq_true_eq]
      rintro rfl
      exact hk (List.mem_reverse.1 hp)
    rw [hfind]
    rfl

omit [Inhabited ι] [DecidableEq H] in
theorem find_map_field (cs : List (ProofNode ι H)) (k : Str) :
    ((cs.map ProofNode.field).reverse.find? fun f => f.1 = k).map (·.2) =
      (lastChild cs k).map ProofNode.cached := by
  rw [← List.map_reverse, List.find?_map, lastChild, Option.map_map]
  rfl

omit [Inhabited ι] [DecidableEq H] in
theorem lastChild_eq_none {cs : List (ProofNode ι H)} {k : Str} :
    lastChild cs k = none ↔ k ∉ cs.map (·.label.sourcePath) := by
  rw [lastChild, List.find?_eq_none]
  simp

omit [DecidableEq H] in
theorem newRecord_field_eq_iff (cs : List (ProofNode ι H)) (ps : List Str) (value : Str → Value ι) :
    newRecord (cs.map ProofNode.field) = newRecord (ps.map fun p => (p, value p)) ↔
      (∀ k, k ∈ ps ↔ k ∈ cs.map (·.label.sourcePath)) ∧
        ∀ k c, lastChild cs k = some c → c.cached = value k := by
  rw [newRecord_eq_iff]
  simp only [find_map_value, find_map_field]
  constructor
  · intro h
    refine ⟨fun k => ?_, fun k c hc => ?_⟩
    · have hk := h k
      rw [← not_iff_not, ← lastChild_eq_none]
      split_ifs at hk with hmem
      · simp only [hmem, not_true_eq_false, false_iff]
        rintro hnone
        rw [hnone] at hk
        cases hk
      · simp only [hmem, not_false_eq_true, true_iff]
        exact Option.map_eq_none_iff.1 hk
    · have hk := h k
      rw [hc, Option.map_some] at hk
      split_ifs at hk
      exact Option.some.inj hk
  · rintro ⟨hsame, hval⟩ k
    cases hc : lastChild cs k with
    | none =>
      rw [if_neg fun hmem => lastChild_eq_none.1 hc ((hsame k).1 hmem)]
      rfl
    | some c =>
      obtain ⟨hmem, hpath⟩ := mem_of_lastChild hc
      rw [if_pos ((hsame k).2 (List.mem_map.2 ⟨c, hmem, hpath⟩)), Option.map_some, hval k c hc]

/-! ### The characterisation -/

variable {V : View ι H} {lists : List H → List Str → Prop}
  (hlists : ∀ hs ps ps', lists hs ps → lists hs ps' → ps = ps')

include hlists

omit [DecidableEq H] in
theorem Denotes.unique {e : Expr ι H} {v : Value ι} (h : Denotes V lists e v) :
    ∀ v', Denotes V lists e v' → v = v' := by
  induction h with
  | const v =>
    intro v' h'
    cases h'
    rfl
  | compose hs ps atom value listed current _ ih =>
    intro v' h'
    cases h' with
    | compose _ ps' atom' value' listed' current' sub' =>
      obtain rfl := hlists hs ps ps' listed listed'
      congr 1
      refine List.map_congr_left fun p hp => ?_
      have hatom : atom p = atom' p := Option.some.inj ((current p hp).symm.trans (current' p hp))
      rw [ih p hp (value' p) (hatom ▸ sub' p hp)]

omit [DecidableEq H] in
theorem cached_reduced_eq_iff (n : ProofNode ι H)
    (hn : Consistent n) (hup : Rose.UpClosed (·.dirty) n) (hplain : Plain V n) {a : CausalAtom ι H}
    (ha : V.current n.label.sourcePath = some a) {d : Value ι} (hd : Denotes V lists a.expr d) :
    (reduced V n).cached = d ↔ Agrees V lists n := by
  induction n using Rose.induct generalizing a d with
  | node info cs ih =>
    rw [Rose.label_node] at ha
    have hlabel := hplain.label
    rw [cached_reduced hn hup hplain]
    cases he : (info.refreshed V).expr with
    | eConst v =>
      rw [ownValue_eConst]
      constructor
      · rintro rfl
        exact .const info cs a v he ha hd
      · intro h
        cases h with
        | const _ _ b u hu hb hden =>
          rw [he] at hu
          obtain rfl := Expr.eConst.inj hu
          rw [ha] at hb
          obtain rfl := Option.some.inj hb
          exact hden.unique hlists d hd
        | compose _ _ _ _ _ _ expr => rw [he] at expr; cases expr
        | record _ _ _ _ expr => rw [he] at expr; cases expr
    | eCompose hs =>
      rw [ownValue_eCompose]
      cases hd' : a.expr with
      | eConst u =>
        rw [hd'] at hd
        cases hd
        constructor
        · rintro rfl
          exact .record info cs a hs he ha hd'
        · intro h
          cases h with
          | const _ _ _ _ expr => rw [he] at expr; cases expr
          | compose _ _ b _ _ _ _ hb new =>
            rw [ha] at hb
            obtain rfl := Option.some.inj hb
            rw [hd'] at new
            cases new
          | record _ _ b _ _ hb new =>
            rw [ha] at hb
            obtain rfl := Option.some.inj hb
            rw [hd'] at new
            exact (Expr.eConst.inj new).symm
      | eCompose hs' =>
        rw [hd'] at hd
        cases hd with
        | compose _ ps atom value listed current sub =>
          rw [newRecord_field_eq_iff]
          -- the children that are read, one by one
          have hchild : (∀ k, k ∈ ps ↔ k ∈ cs.map (·.label.sourcePath)) → ∀ k c,
              lastChild cs k = some c → ((reduced V c).cached = value k ↔ Agrees V lists c) := by
            intro hsame k c hc
            obtain ⟨hmem, hpath⟩ := mem_of_lastChild hc
            have hk : k ∈ ps := (hsame k).2 (List.mem_map.2 ⟨c, hmem, hpath⟩)
            cases hn with
            | node _ _ below _ _ =>
              cases hup with
              | node _ _ upBelow _ =>
                exact ih c hmem (below c hmem) (upBelow c hmem) (hplain.child hmem)
                  (hpath ▸ current k hk) (sub k hk)
          have hpaths : (cs.map (reduced V)).map (·.label.sourcePath) =
              cs.map (·.label.sourcePath) := by
            rw [List.map_map]
            exact List.map_congr_left fun c _ => sourcePath_reduced V c
          rw [hpaths]
          simp only [lastChild_map (sourcePath_reduced V)]
          constructor
          · rintro ⟨hsame, hval⟩
            refine .compose info cs a hs hs' ps he ha hd' listed hsame fun k c hc => ?_
            exact (hchild hsame k c hc).1 (hval k _ (by rw [hc]; rfl))
          · intro h
            cases h with
            | const _ _ _ _ expr => rw [he] at expr; cases expr
            | compose _ _ b _ hs'' ps' _ hb new listed' same sub' =>
              rw [ha] at hb
              obtain rfl := Option.some.inj hb
              rw [hd'] at new
              obtain rfl := Expr.eCompose.inj new
              obtain rfl := hlists _ ps ps' listed listed'
              refine ⟨same, fun k c hc => ?_⟩
              obtain ⟨c', hc', rfl⟩ := Option.map_eq_some_iff.1 hc
              exact (hchild same k c' hc').2 (sub' k c' hc')
            | record _ _ b _ _ hb new =>
              rw [ha] at hb
              obtain rfl := Option.some.inj hb
              rw [hd'] at new
              cases new
      | _ => rw [hd'] at hd; cases hd
    | _ => rw [he] at hlabel; exact hlabel.elim

end

end Wavicle.Engine
