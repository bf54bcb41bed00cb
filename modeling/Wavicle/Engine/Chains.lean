import Wavicle.Engine.Composition

/-! # Entries of a nested record

The value of a composite is a record with an entry for each child, under the child's path; a child's entry
displaces that of an earlier sibling with the same path. -/

namespace Wavicle.Engine

open Lib Wavicle.Core Storage Rose List

section

variable {ι H : Type}

def entry : List Str → Value ι → Option (Value ι)
  | [], v => some v
  | k :: ks, .vRecord _ fields => (fields.lookup k).bind (entry ks)
  | _ :: _, _ => none

/-- The chain of keys leads through the tree to a node with the path `q`. -/
inductive Reaches : Rose Str → List Str → Str → Prop where
  | here (p : Str) (cs : List (Rose Str)) : Reaches (.node p cs) [] p
  | child (p : Str) (cs : List (Rose Str)) (c : Rose Str) (hc : c ∈ cs) (ks : List Str) (q : Str)
      (h : Reaches c ks q) : Reaches (.node p cs) (c.label :: ks) q

def lastChild (cs : List (ProofNode ι H)) (k : Str) : Option (ProofNode ι H) :=
  cs.reverse.find? fun c => c.label.sourcePath = k

/-- The node that a list of paths leads to. -/
def follow : List Str → ProofNode ι H → Option (ProofNode ι H)
  | [], n => some n
  | k :: ks, n => (lastChild n.children k).bind (follow ks)

variable {cs : List (ProofNode ι H)} {V : View ι H}

theorem mem_of_lastChild {k : Str} {c : ProofNode ι H} (h : lastChild cs k = some c) :
    c ∈ cs ∧ c.label.sourcePath = k := by
  refine ⟨mem_reverse.1 (mem_of_find?_eq_some h), ?_⟩
  simpa using List.find?_some h

theorem exists_lastChild {c : ProofNode ι H} (hc : c ∈ cs) :
    ∃ d, lastChild cs c.label.sourcePath = some d := by
  rw [← Option.isSome_iff_exists, lastChild, List.find?_isSome]
  exact ⟨c, mem_reverse.2 hc, by simp⟩

theorem lastChild_map {f : ProofNode ι H → ProofNode ι H}
    (hf : ∀ c, (f c).label.sourcePath = c.label.sourcePath) (cs : List (ProofNode ι H)) (k : Str) :
    lastChild (cs.map f) k = (lastChild cs k).map f := by
  unfold lastChild
  rw [← map_reverse, List.find?_map]
  have hcomp : (fun c : ProofNode ι H => decide (c.label.sourcePath = k)) ∘ f =
      fun c => decide (c.label.sourcePath = k) := funext fun c => by simp [hf]
  rw [hcomp]

variable [Inhabited ι]

omit [Inhabited ι] in
theorem lookup_foldl_put (k : Str) : ∀ (fields m : List (Str × Value ι)),
    (fields.foldl (fun m f => SortedMap.put f.1 f.2 m) m).lookup k =
      ((fields.reverse.find? fun f => f.1 = k).map (·.2)).or (m.lookup k)
  | [], m => by simp
  | f :: fields, m => by
    rw [foldl_cons, lookup_foldl_put k fields, SortedMap.lookup_put, reverse_cons,
      List.find?_append]
    by_cases hk : f.1 = k
    · cases (fields.reverse.find? fun f => f.1 = k) <;> simp [hk]
    · have hk' : k ≠ f.1 := fun h => hk h.symm
      cases (fields.reverse.find? fun f => f.1 = k) <;> simp [hk, hk']

theorem entry_newRecord (k : Str) (ks : List Str) (cs : List (ProofNode ι H)) :
    entry (k :: ks) (newRecord (cs.map ProofNode.field)) =
      (lastChild cs k).bind fun c => entry ks c.cached := by
  rw [newRecord, entry, lookup_foldl_put, lastChild, ← map_reverse, List.find?_map]
  cases h : cs.reverse.find? fun c => c.label.sourcePath = k with
  | none =>
    have h' : cs.reverse.find? ((fun f : Str × Value ι => decide (f.1 = k)) ∘ ProofNode.field) =
      none := h
    rw [h']
    rfl
  | some c =>
    have h' : cs.reverse.find? ((fun f : Str × Value ι => decide (f.1 = k)) ∘ ProofNode.field) =
      some c := h
    rw [h']
    rfl

theorem Consistent.entry_cons {info : NodeInfo ι H} (h : Consistent (.node info cs)) (k : Str)
    (ks : List Str) :
    entry (k :: ks) (ProofNode.cached (.node info cs)) =
      match info.expr with
      | .eConst v => entry (k :: ks) v
      | _ => (lastChild cs k).bind fun c => entry ks c.cached := by
  rw [h.cached]
  cases info.expr with
  | eConst v => rfl
  | _ => exact entry_newRecord k ks cs

/-! ### Positions -/

section

omit [Inhabited ι]

theorem follow_cons {k : Str} {ks : List Str} {info : NodeInfo ι H} {m : ProofNode ι H}
    (h : follow (k :: ks) (.node info cs) = some m) :
    ∃ c ∈ cs, lastChild cs k = some c ∧ c.label.sourcePath = k ∧ follow ks c = some m := by
  obtain ⟨c, hc, hm⟩ := Option.bind_eq_some_iff.1 h
  obtain ⟨hmem, hpath⟩ := mem_of_lastChild hc
  exact ⟨c, hmem, hc, hpath, hm⟩

theorem labels_follow : ∀ (ks : List Str) (n m : ProofNode ι H), follow ks n = some m →
    m.labels ⊆ n.labels
  | [], n, m, h => by
    obtain rfl := Option.some.inj h
    exact List.Subset.refl _
  | k :: ks, .node info cs, m, h => by
    obtain ⟨c, hc, -, -, hm⟩ := follow_cons h
    refine List.Subset.trans (labels_follow ks c m hm) fun i hi => ?_
    rw [labels_node]
    exact mem_cons_of_mem _ (mem_flatMap.2 ⟨c, hc, hi⟩)

theorem addr_follow_ne : ∀ (ks ks' : List Str) (n m m' : ProofNode ι H),
    (n.labels.map (·.addr)).Nodup → follow ks n = some m → follow ks' n = some m' → ks ≠ ks' →
      m.label.addr ≠ m'.label.addr
  | [], [], _, _, _, _, _, _, hne => absurd rfl hne
  | [], k :: ks, .node info cs, m, m', hnd, h, h', _ => by
    obtain rfl := Option.some.inj h
    obtain ⟨c, hc, -, -, hm⟩ := follow_cons h'
    rw [labels_node, map_cons, nodup_cons] at hnd
    intro heq
    refine hnd.1 (List.mem_map.2 ⟨m'.label, mem_flatMap.2 ⟨c, hc, ?_⟩, heq.symm⟩)
    exact labels_follow ks c m' hm m'.label_mem_labels
  | k :: ks, [], .node info cs, m, m', hnd, h, h', _ => by
    obtain rfl := Option.some.inj h'
    obtain ⟨c, hc, -, -, hm⟩ := follow_cons h
    rw [labels_node, map_cons, nodup_cons] at hnd
    intro heq
    refine hnd.1 (List.mem_map.2 ⟨m.label, mem_flatMap.2 ⟨c, hc, ?_⟩, heq⟩)
    exact labels_follow ks c m hm m.label_mem_labels
  | k :: ks, k' :: ks', .node info cs, m, m', hnd, h, h', hne => by
    obtain ⟨c, hc, hlast, hk, hm⟩ := follow_cons h
    obtain ⟨c', hc', hlast', hk', hm'⟩ := follow_cons h'
    rw [labels_node, map_cons, nodup_cons, map_flatMap, nodup_flatMap] at hnd
    obtain ⟨-, hsub, hdisj⟩ := hnd
    by_cases hkk : k = k'
    · subst hkk
      rw [hlast] at hlast'
      obtain rfl := Option.some.inj hlast'
      exact addr_follow_ne ks ks' c m m' (hsub c hc) hm hm' fun heq => hne (heq ▸ rfl)
    · have hcc : c ≠ c' := fun heq => hkk (by rw [← hk, ← hk', heq])
      have hmem : ∀ (ks : List Str) (c m : ProofNode ι H), follow ks c = some m →
          m.label.addr ∈ c.labels.map (·.addr) := fun ks c m hm =>
        List.mem_map.2 ⟨m.label, labels_follow ks c m hm m.label_mem_labels, rfl⟩
      have : Std.Symm (Function.onFun List.Disjoint fun c : ProofNode ι H =>
          c.labels.map (·.addr)) := ⟨fun _ _ h _ ha hb => h hb ha⟩
      intro heq
      exact hdisj.forall hc hc' hcc (hmem ks c m hm) (heq ▸ hmem ks' c' m' hm')

end

/-! ### Trees from a view -/

/-- The tree of the paths below a path: each has the children of its current expression. -/
inductive PathTree (V : View ι H) : Rose Str → Prop where
  | node (p : Str) (cs : List (Rose Str)) (atom : CausalAtom ι H) (current : V.current p = some atom)
      (paths : cs.map label = childPaths V atom.expr) (sub : ∀ c ∈ cs, PathTree V c) :
      PathTree V (.node p cs)

omit [Inhabited ι] in
theorem FromView.pathTree (n : ProofNode ι H) (h : FromView V n) : PathTree V (n.map (·.sourcePath)) := by
  induction n using induct with
  | node info cs ih =>
    cases h with
    | node _ _ atom current expr hash fresh clean paths below =>
      rw [map_node]
      refine .node _ _ atom current ?_ fun c hc => ?_
      · rw [← paths, List.map_map]
        exact List.map_congr_left fun c _ => label_map _ c
      · obtain ⟨d, hd, rfl⟩ := List.mem_map.1 hc
        exact ih d hd (below d hd)

theorem eq_of_map_label_eq {α : Type} : ∀ cs ds : List (Rose α),
    cs.map label = ds.map label → (∀ c ∈ cs, ∀ d ∈ ds, c.label = d.label → c = d) → cs = ds
  | [], [], _, _ => rfl
  | [], _ :: _, h, _ => by cases h
  | _ :: _, [], h, _ => by cases h
  | c :: cs, d :: ds, h, heq => by
    rw [map_cons, map_cons, List.cons.injEq] at h
    rw [heq c (.head _) d (.head _) h.1, eq_of_map_label_eq cs ds h.2
      fun c' hc' d' hd' => heq c' (.tail _ hc') d' (.tail _ hd')]

omit [Inhabited ι] in
theorem PathTree.eq_of_label_eq (r : Rose Str) (hr : PathTree V r) :
    ∀ r', PathTree V r' → r.label = r'.label → r = r' := by
  induction r using induct with
  | node p cs ih =>
    intro r' hr' hlabel
    cases hr with
    | node _ _ atom current paths sub =>
      cases hr' with
      | node p' cs' atom' current' paths' sub' =>
        rw [label_node, label_node] at hlabel
        subst hlabel
        rw [current] at current'
        obtain rfl := Option.some.inj current'
        rw [eq_of_map_label_eq cs cs' (paths.trans paths'.symm) fun c hc d hd heq =>
          ih c hc (sub c hc) d (sub' d hd) heq]

omit [Inhabited ι] in
/-- A chain to a path can be followed in every tree over these paths: where siblings have the same
path, all of them have the same tree below them. -/
theorem Reaches.follow {r : Rose Str} {ks : List Str} {q : Str} (h : Reaches r ks q)
    (hr : PathTree V r) : ∀ n : ProofNode ι H, n.map (·.sourcePath) = r →
      ∃ m, follow ks n = some m ∧ m.label.sourcePath = q := by
  induction h with
  | here p cs =>
    rintro n hn
    refine ⟨n, rfl, ?_⟩
    have hlabel := label_map (·.sourcePath) n
    rwa [hn, label_node, eq_comm] at hlabel
  | child p cs c hc ks q hreach ih =>
    intro n hn
    cases hr with
    | node _ _ atom current paths sub =>
      cases n with
      | node info ns =>
        rw [map_node] at hn
        obtain ⟨-, hns⟩ := node.inj hn
        obtain ⟨d, hd, hdc⟩ : ∃ d ∈ ns, map (·.sourcePath) d = c :=
          List.mem_map.1 (hns ▸ hc)
        obtain ⟨l, hl⟩ := exists_lastChild hd
        obtain ⟨hlmem, hlpath⟩ := mem_of_lastChild hl
        have hlabel : (map (·.sourcePath) l).label = c.label := by
          rw [label_map, hlpath, ← hdc, label_map]
        have hlc : map (·.sourcePath) l = c :=
          PathTree.eq_of_label_eq _ (sub _ (hns ▸ List.mem_map.2 ⟨l, hlmem, rfl⟩)) c (sub c hc) hlabel
        obtain ⟨m, hm, hq⟩ := ih (sub c hc) l hlc
        refine ⟨m, ?_, hq⟩
        have hkey : c.label = d.label.sourcePath := by rw [← hdc, label_map]
        change (lastChild ns c.label).bind (Engine.follow ks) = some m
        rw [hkey, hl]
        exact hm

end

end Wavicle.Engine
