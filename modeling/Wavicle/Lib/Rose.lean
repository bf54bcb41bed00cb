import Mathlib

/-! # Rose trees with marks that travel upwards

`raise` marks a label and then its ancestors from below, up to the first one that is marked already; `markWhere`
marks every label whose subtree contains a given kind of label. -/

namespace Wavicle.Lib

open List

/-- Finite trees. -/
inductive Rose (α : Type) where
  | node (label : α) (children : List (Rose α))

namespace Rose

variable {α β : Type}

theorem induct {motive : Rose α → Prop}
    (node : ∀ a cs, (∀ c ∈ cs, motive c) → motive (.node a cs)) : ∀ t, motive t
  | .node a cs => node a cs fun c _ => induct node c

def label : Rose α → α
  | .node a _ => a

@[simp] theorem label_node (a : α) (cs : List (Rose α)) : (node a cs).label = a := rfl

def children : Rose α → List (Rose α)
  | .node _ cs => cs

def beq [DecidableEq α] : Rose α → Rose α → Bool
  | .node a cs, .node b ds => a = b && beqList cs ds
where
  beqList : List (Rose α) → List (Rose α) → Bool
    | [], [] => true
    | c :: cs, d :: ds => c.beq d && beqList cs ds
    | _, _ => false

mutual

theorem beq_iff [DecidableEq α] : ∀ t u : Rose α, t.beq u = true ↔ t = u
  | .node a cs, .node b ds => by simp [beq, beqList_iff cs ds]

theorem beqList_iff [DecidableEq α] : ∀ cs ds : List (Rose α), beq.beqList cs ds = true ↔ cs = ds
  | [], ds => by cases ds <;> simp [beq.beqList]
  | c :: cs, ds => by cases ds <;> simp [beq.beqList, beq_iff c, beqList_iff cs]

end

instance [DecidableEq α] : DecidableEq (Rose α) := fun t u => decidable_of_iff _ (t.beq_iff u)

def labels : Rose α → List α
  | .node a cs => a :: labelsList cs
where
  labelsList : List (Rose α) → List α
    | [] => []
    | c :: cs => c.labels ++ labelsList cs

theorem labels_node (a : α) (cs : List (Rose α)) : (node a cs).labels = a :: cs.flatMap labels := by
  have hlist : ∀ cs : List (Rose α), labels.labelsList cs = cs.flatMap labels := by
    intro cs
    induction cs with
    | nil => rfl
    | cons c cs ih => simp [labels.labelsList, ih]
  rw [labels, hlist]

theorem label_mem_labels : ∀ t : Rose α, t.label ∈ t.labels
  | .node a cs => by simp [labels_node]

def map (f : α → β) : Rose α → Rose β
  | .node a cs => .node (f a) (mapList cs)
where
  mapList : List (Rose α) → List (Rose β)
    | [] => []
    | c :: cs => c.map f :: mapList cs

theorem map_node (f : α → β) (a : α) (cs : List (Rose α)) :
    (node a cs).map f = node (f a) (cs.map (map f)) := by
  have hlist : ∀ cs : List (Rose α), map.mapList f cs = cs.map (map f) := by
    intro cs
    induction cs with
    | nil => rfl
    | cons c cs ih => simp [map.mapList, ih]
  rw [map, hlist]

theorem label_map (f : α → β) : ∀ t : Rose α, (t.map f).label = f t.label
  | .node a cs => by rw [map_node, label_node, label_node]

theorem labels_map (f : α → β) (t : Rose α) : (t.map f).labels = t.labels.map f := by
  induction t using induct with
  | node a cs ih =>
    rw [map_node, labels_node, labels_node, map_cons, flatMap_map, map_flatMap]
    congr 1
    exact flatMap_congr fun c hc => ih c hc

theorem map_map {γ : Type} (f : α → β) (g : β → γ) (t : Rose α) : (t.map f).map g = t.map (g ∘ f) := by
  induction t using induct with
  | node a cs ih =>
    rw [map_node, map_node, map_node, List.map_map]
    congr 1
    exact List.map_congr_left fun c hc => ih c hc

theorem map_eq_self {f : α → α} (t : Rose α) (h : ∀ a ∈ t.labels, f a = a) : t.map f = t := by
  induction t using induct with
  | node a cs ih =>
    rw [labels_node, forall_mem_cons] at h
    rw [map_node, h.1]
    congr 1
    refine (List.map_congr_left fun c hc => ?_).trans (map_id cs)
    exact ih c hc fun x hx => h.2 x (mem_flatMap.2 ⟨c, hc, hx⟩)

/-! ### Marks -/

def markWhere (A : α → Bool) (mark : α → α) : Rose α → Rose α
  | .node a cs =>
    .node (if (node a cs).labels.any A then mark a else a) (markList cs)
where
  markList : List (Rose α) → List (Rose α)
    | [] => []
    | c :: cs => c.markWhere A mark :: markList cs

theorem markWhere_node (A : α → Bool) (mark : α → α) (a : α) (cs : List (Rose α)) :
    (node a cs).markWhere A mark =
      node (if (node a cs).labels.any A then mark a else a) (cs.map (markWhere A mark)) := by
  have hlist : ∀ cs : List (Rose α), markWhere.markList A mark cs = cs.map (markWhere A mark) := by
    intro cs
    induction cs with
    | nil => rfl
    | cons c cs ih => simp [markWhere.markList, ih]
  rw [markWhere, hlist]

/-- Mark the label in `target` and its ancestors, from below, up to the first one that is marked.
The flag is `none` if there is no such label, and otherwise says whether the marking went on through
the root. -/
def raise (target marked : α → Bool) (mark : α → α) : Rose α → Rose α × Option Bool
  | .node a cs =>
    if target a then
      if marked a then (.node a cs, some false) else (.node (mark a) cs, some true)
    else match raiseList cs with
      | (_, none) => (.node a cs, none)
      | (cs', some false) => (.node a cs', some false)
      | (cs', some true) =>
        if marked a then (.node a cs', some false) else (.node (mark a) cs', some true)
where
  raiseList : List (Rose α) → List (Rose α) × Option Bool
    | [] => ([], none)
    | c :: cs =>
      match c.raise target marked mark with
      | (c', some b) => (c' :: cs, some b)
      | (_, none) =>
        match raiseList cs with
        | (cs', b) => (c :: cs', b)

/-- Marks are closed upwards: the parent of a marked label is marked. -/
inductive UpClosed (marked : α → Bool) : Rose α → Prop where
  | node (a : α) (cs : List (Rose α)) (below : ∀ c ∈ cs, UpClosed marked c)
      (up : ∀ c ∈ cs, marked c.label = true → marked a = true) : UpClosed marked (.node a cs)

theorem upClosed_of_unmarked {marked : α → Bool} (t : Rose α)
    (h : ∀ a ∈ t.labels, marked a = false) : UpClosed marked t := by
  induction t using induct with
  | node a cs ih =>
    rw [labels_node] at h
    have hsub : ∀ c ∈ cs, ∀ x ∈ c.labels, marked x = false := fun c hc x hx =>
      h x (.tail _ (mem_flatMap.2 ⟨c, hc, hx⟩))
    refine .node a cs (fun c hc => ih c hc (hsub c hc)) fun c hc hm => ?_
    rw [hsub c hc _ c.label_mem_labels] at hm
    cases hm

theorem markWhere_of_none {A : α → Bool} (mark : α → α) (t : Rose α)
    (h : ∀ a ∈ t.labels, A a = false) : t.markWhere A mark = t := by
  induction t using induct with
  | node a cs ih =>
    have hany : (node a cs).labels.any A = false := by simpa using h
    rw [labels_node] at h
    rw [markWhere_node, hany]
    simp only [Bool.false_eq_true, if_false]
    congr 1
    refine (List.map_congr_left fun c hc => ?_).trans (map_id cs)
    exact ih c hc fun x hx => h x (.tail _ (mem_flatMap.2 ⟨c, hc, hx⟩))

theorem any_congr_mem {A B : α → Bool} {l : List α} (h : ∀ a ∈ l, A a = B a) : l.any A = l.any B := by
  rw [Bool.eq_iff_iff, any_eq_true, any_eq_true]
  exact exists_congr fun a => and_congr_right fun ha => by rw [h a ha]

theorem markWhere_congr {A B : α → Bool} (mark : α → α) (t : Rose α) (h : ∀ a ∈ t.labels, A a = B a) :
    t.markWhere A mark = t.markWhere B mark := by
  induction t using induct with
  | node a cs ih =>
    rw [markWhere_node, markWhere_node, any_congr_mem h]
    rw [labels_node] at h
    congr 1
    exact List.map_congr_left fun c hc => ih c hc fun x hx =>
      h x (.tail _ (mem_flatMap.2 ⟨c, hc, hx⟩))

theorem raiseList_of_none {target marked : α → Bool} {mark : α → α} :
    ∀ cs : List (Rose α), (∀ c ∈ cs, c.raise target marked mark = (c, none)) →
      raise.raiseList target marked mark cs = (cs, none)
  | [], _ => rfl
  | c :: cs, h => by
    unfold raise.raiseList
    rw [h c (.head _),
      raiseList_of_none cs fun c' hc' => h c' (.tail _ hc')]

theorem raise_of_none {target : α → Bool} (marked : α → Bool) (mark : α → α) (t : Rose α)
    (h : ∀ a ∈ t.labels, target a = false) : t.raise target marked mark = (t, none) := by
  induction t using induct with
  | node a cs ih =>
    rw [labels_node] at h
    have hcs : raise.raiseList target marked mark cs = (cs, none) :=
      raiseList_of_none cs fun c hc => ih c hc fun x hx =>
        h x (.tail _ (mem_flatMap.2 ⟨c, hc, hx⟩))
    unfold raise
    rw [if_neg (by simp [h a (.head _)]), hcs]

section Unique

variable {target marked : α → Bool} {mark : α → α}

theorem none_of_countP_eq_zero {l : List α} (h : l.countP target = 0) : ∀ a ∈ l, target a = false := by
  intro a ha
  simpa using countP_eq_zero.1 h a ha

theorem raiseList_unique : ∀ cs : List (Rose α),
    (∀ c ∈ cs, c.labels.countP target = 1 →
      c.raise target marked mark = (c.markWhere target mark, some (!marked c.label))) →
    (cs.flatMap labels).countP target = 1 →
    ∃ c ∈ cs, raise.raiseList target marked mark cs =
      (cs.map (markWhere target mark), some (!marked c.label))
  | [], _, h => by simp at h
  | c :: cs, hcs, h => by
    rw [flatMap_cons, countP_append] at h
    unfold raise.raiseList
    rcases Nat.eq_zero_or_pos (c.labels.countP target) with hc | hc
    · have hnone := none_of_countP_eq_zero hc
      obtain ⟨d, hd, hraise⟩ := raiseList_unique cs
        (forall_mem_cons.1 hcs).2 (by omega)
      refine ⟨d, mem_cons_of_mem _ hd, ?_⟩
      rw [raise_of_none marked mark c hnone, hraise]
      simp [markWhere_of_none mark c hnone]
    · have hrest : ∀ x ∈ cs.flatMap labels, target x = false :=
        none_of_countP_eq_zero (by omega)
      refine ⟨c, mem_cons_self, ?_⟩
      rw [hcs c (.head _) (by omega)]
      have hid : cs.map (markWhere target mark) = cs :=
        (List.map_congr_left fun d hd => markWhere_of_none mark d fun x hx =>
          hrest x (mem_flatMap.2 ⟨d, hd, hx⟩)).trans (map_id cs)
      simp [hid]

theorem raise_unique (hmark : ∀ a, marked a = true → mark a = a) (t : Rose α)
    (hup : UpClosed marked t) (h : t.labels.countP target = 1) :
    t.raise target marked mark = (t.markWhere target mark, some (!marked t.label)) := by
  induction t using induct with
  | node a cs ih =>
    cases hup with
    | node _ _ below up =>
      have hany : (node a cs).labels.any target = true := by
        rw [any_eq_true]
        exact countP_pos_iff.1 (by omega)
      rw [labels_node, countP_cons] at h
      rw [markWhere_node, hany]
      unfold raise
      by_cases ha : target a = true
      · -- the label of the root: there is no other below it
        have hrest : ∀ x ∈ cs.flatMap labels, target x = false :=
          none_of_countP_eq_zero (by simpa [ha] using h)
        have hid : cs.map (markWhere target mark) = cs :=
          (List.map_congr_left fun d hd => markWhere_of_none mark d fun x hx =>
            hrest x (mem_flatMap.2 ⟨d, hd, hx⟩)).trans (map_id cs)
        rw [if_pos ha, hid]
        cases hm : marked a
        · simp [hm]
        · simp [hm, hmark a hm]
      · obtain ⟨c, hc, hraise⟩ := raiseList_unique cs (fun c hc => ih c hc (below c hc))
          (by simpa [ha] using h)
        rw [if_neg ha, hraise]
        cases hm : marked a
        · have hcm : marked c.label = false := by
            rw [← Bool.not_eq_true]
            intro hcm
            rw [up c hc hcm] at hm
            cases hm
          simp [hm, hcm]
        · cases hcm : marked c.label <;> simp [hm, hmark a hm]

theorem raise_fst (hmark : ∀ a, marked a = true → mark a = a) {t : Rose α}
    (hup : UpClosed marked t) (h : t.labels.countP target ≤ 1) :
    (t.raise target marked mark).1 = t.markWhere target mark := by
  rcases Nat.eq_zero_or_pos (t.labels.countP target) with h0 | h0
  · have hnone := none_of_countP_eq_zero h0
    rw [raise_of_none marked mark t hnone, markWhere_of_none mark t hnone]
  · rw [raise_unique hmark t hup (by omega)]

end Unique

section Marking

variable {marked : α → Bool} {mark : α → α}

theorem label_markWhere (A : α → Bool) : ∀ t : Rose α,
    (t.markWhere A mark).label = if t.labels.any A then mark t.label else t.label
  | .node a cs => by rw [markWhere_node, label_node, label_node]

theorem map_markWhere (A : α → Bool) {g : α → β} (hg : ∀ a, g (mark a) = g a) (t : Rose α) :
    (t.markWhere A mark).map g = t.map g := by
  induction t using induct with
  | node a cs ih =>
    rw [markWhere_node, map_node, map_node, List.map_map]
    congr 1
    · split_ifs <;> simp [hg]
    · exact List.map_congr_left fun c hc => ih c hc

theorem map_labels_markWhere (A : α → Bool) {g : α → β} (hg : ∀ a, g (mark a) = g a) (t : Rose α) :
    (t.markWhere A mark).labels.map g = t.labels.map g := by
  rw [← labels_map, map_markWhere A hg, labels_map]

theorem any_labels_markWhere (B : α → Bool) {A : α → Bool} (hA : ∀ a, A (mark a) = A a)
    (t : Rose α) : (t.markWhere B mark).labels.any A = t.labels.any A := by
  have h := congrArg (List.any · id) (map_labels_markWhere B hA t)
  simpa only [any_map, Function.comp_def, id] using h

theorem countP_labels_markWhere (B : α → Bool) {A : α → Bool} (hA : ∀ a, A (mark a) = A a)
    (t : Rose α) : (t.markWhere B mark).labels.countP A = t.labels.countP A := by
  have h := congrArg (List.countP id) (map_labels_markWhere B hA t)
  simpa only [countP_map, Function.comp_def, id] using h

theorem upClosed_markWhere (hmarked : ∀ a, marked (mark a) = true) (A : α → Bool) (t : Rose α)
    (h : UpClosed marked t) : UpClosed marked (t.markWhere A mark) := by
  induction t using induct with
  | node a cs ih =>
    cases h with
    | node _ _ below up =>
      rw [markWhere_node]
      refine .node _ _ (fun c hc => ?_) (fun c hc hm => ?_)
      · obtain ⟨d, hd, rfl⟩ := mem_map.1 hc
        exact ih d hd (below d hd)
      · obtain ⟨d, hd, rfl⟩ := mem_map.1 hc
        split_ifs with hany
        · exact hmarked a
        · rw [label_markWhere] at hm
          have hd' : d.labels.any A = false := by
            rw [labels_node] at hany
            simp only [any_cons, Bool.or_eq_true, not_or, any_flatMap] at hany
            rw [← Bool.not_eq_true]
            intro hdany
            exact hany.2 (any_eq_true.2 ⟨d, hd, hdany⟩)
          rw [hd'] at hm
          exact up d hd hm

theorem any_or (A B : α → Bool) (l : List α) : l.any (fun a => A a || B a) = (l.any A || l.any B) := by
  induction l with
  | nil => rfl
  | cons a l ih => simp only [any_cons, ih, Bool.or_assoc, Bool.or_left_comm]

theorem markWhere_markWhere (hmark : ∀ a, mark (mark a) = mark a) {A B : α → Bool}
    (hA : ∀ a, A (mark a) = A a) (t : Rose α) :
    (t.markWhere B mark).markWhere A mark = t.markWhere (fun a => B a || A a) mark := by
  induction t using induct with
  | node a cs ih =>
    have hany := any_labels_markWhere B hA (node a cs)
    rw [markWhere_node] at hany ⊢
    rw [markWhere_node, hany, markWhere_node, List.map_map, any_or]
    congr 1
    · cases (node a cs).labels.any A <;> cases (node a cs).labels.any B <;> simp [hmark]
    · exact List.map_congr_left fun c hc => ih c hc

/-- **Marking from several labels**, one after another: every label with one of them below it. -/
theorem foldl_raise (hmarked : ∀ a, marked (mark a) = true)
    (hmark : ∀ a, marked a = true → mark a = a) {τ : Type} {hit : τ → α → Bool}
    (hhit : ∀ s a, hit s (mark a) = hit s a) : ∀ (ts : List τ) (t : Rose α),
      UpClosed marked t → (∀ s ∈ ts, t.labels.countP (hit s) ≤ 1) →
      ts.foldl (fun t s => (t.raise (hit s) marked mark).1) t =
        t.markWhere (fun a => ts.any (hit · a)) mark
  | [], t, _, _ => by
    rw [foldl_nil, markWhere_of_none mark t (by simp)]
  | s :: ts, t, hup, hcount => by
    rw [foldl_cons, raise_fst hmark hup (hcount s (.head _)),
      foldl_raise hmarked hmark hhit ts _ (upClosed_markWhere hmarked _ t hup),
      markWhere_markWhere (fun a => hmark _ (hmarked a)) (by simp [hhit])]
    · simp only [any_cons]
    · intro s' hs'
      rw [countP_labels_markWhere _ (hhit s')]
      exact hcount s' (.tail _ hs')

end Marking

end Rose

end Wavicle.Lib
