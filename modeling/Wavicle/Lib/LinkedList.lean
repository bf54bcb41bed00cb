import Mathlib

/-! # Doubly linked lists

Go's `container/list`: a list whose elements have an identity, so that a pointer to an element can
be kept elsewhere. An element is the number under which it was pushed, together with its value. -/

namespace Wavicle.Lib

open List

/-- The elements from front to back, and the number of the next element. -/
structure LinkedList (α : Type) where
  elems : List (ℕ × α)
  next : ℕ

namespace LinkedList

variable {α : Type}

def new : LinkedList α := ⟨[], 0⟩

def len (l : LinkedList α) : ℕ := l.elems.length

/-- `PushFront`: the new element and the list. -/
def pushFront (l : LinkedList α) (a : α) : ℕ × LinkedList α :=
  (l.next, ⟨(l.next, a) :: l.elems, l.next + 1⟩)

/-- `MoveToFront`; nothing happens to an element that is not in the list. -/
def moveToFront (l : LinkedList α) (e : ℕ) : LinkedList α :=
  ⟨l.elems.filter (·.1 = e) ++ l.elems.filter (·.1 ≠ e), l.next⟩

def remove (l : LinkedList α) (e : ℕ) : LinkedList α := ⟨l.elems.filter (·.1 ≠ e), l.next⟩

def back (l : LinkedList α) : Option (ℕ × α) := l.elems.getLast?

/-- `e.Value`, of an element of the list -/
def value (l : LinkedList α) (e : ℕ) : Option α := (l.elems.find? (·.1 = e)).map (·.2)

/-- The assignment `e.Value = a` -/
def setValue (l : LinkedList α) (e : ℕ) (a : α) : LinkedList α :=
  ⟨l.elems.map fun x => if x.1 = e then (e, a) else x, l.next⟩

/-! ### Membership -/

variable {x : ℕ × α} {l : LinkedList α}

theorem mem_remove {e : ℕ} : x ∈ (l.remove e).elems ↔ x ∈ l.elems ∧ x.1 ≠ e := by
  simp [remove]

theorem mem_pushFront {a : α} : x ∈ (l.pushFront a).2.elems ↔ x = (l.next, a) ∨ x ∈ l.elems := by
  simp [pushFront]

theorem perm_moveToFront (l : LinkedList α) (e : ℕ) : (l.moveToFront e).elems.Perm l.elems := by
  have h := filter_append_perm (fun x : ℕ × α => decide (x.1 = e)) l.elems
  simpa only [moveToFront, decide_not] using h

theorem mem_of_back (h : l.back = some x) : x ∈ l.elems :=
  mem_of_getLast? h

/-- No two elements have the same identity, and the next one is new. -/
structure WellFormed (l : LinkedList α) : Prop where
  nodup : (l.elems.map (·.1)).Nodup
  fresh : ∀ x ∈ l.elems, x.1 < l.next

theorem wellFormed_new : (new : LinkedList α).WellFormed := ⟨nodup_nil, by simp [new]⟩

theorem WellFormed.pushFront (h : l.WellFormed) (a : α) : (l.pushFront a).2.WellFormed := by
  refine ⟨nodup_cons.2 ⟨fun hmem => ?_, h.nodup⟩, fun x hx => ?_⟩
  · obtain ⟨x, hx, hid⟩ := mem_map.1 hmem
    exact absurd hid (h.fresh x hx).ne
  · rcases mem_pushFront.1 hx with rfl | hx
    · exact Nat.lt_succ_self _
    · exact (h.fresh x hx).trans (Nat.lt_succ_self _)

theorem WellFormed.remove (h : l.WellFormed) (e : ℕ) : (l.remove e).WellFormed :=
  ⟨h.nodup.sublist (filter_sublist.map _), fun x hx => h.fresh x (mem_remove.1 hx).1⟩

theorem WellFormed.moveToFront (h : l.WellFormed) (e : ℕ) : (l.moveToFront e).WellFormed :=
  ⟨((l.perm_moveToFront e).map _).nodup_iff.2 h.nodup, fun x hx =>
    h.fresh x ((l.perm_moveToFront e).mem_iff.1 hx)⟩

theorem WellFormed.eq_of_id (h : l.WellFormed) {y : ℕ × α} (hx : x ∈ l.elems) (hy : y ∈ l.elems)
    (hid : x.1 = y.1) : x = y :=
  inj_on_of_nodup_map h.nodup hx hy hid

theorem WellFormed.remove_back (h : l.WellFormed) (hx : l.back = some x) :
    (l.remove x.1).elems = l.elems.dropLast := by
  obtain ⟨init, hinit⟩ := List.getLast?_eq_some_iff.1 hx
  have hnodup := h.nodup
  rw [hinit, map_append, nodup_append] at hnodup
  have hrest : init.filter (·.1 ≠ x.1) = init := by
    refine filter_eq_self.2 fun y hy => decide_eq_true fun hid => ?_
    exact hnodup.2.2 y.1 (mem_map_of_mem hy) x.1 (by simp) hid
  rw [LinkedList.remove, hinit, filter_append, hrest, dropLast_concat]
  simp

/-! ### To the front -/

theorem WellFormed.moveToFront_eq (h : l.WellFormed) (hx : x ∈ l.elems) :
    l.moveToFront x.1 = ⟨x :: l.elems.filter (·.1 ≠ x.1), l.next⟩ := by
  have hself : l.elems.filter (·.1 = x.1) = [x] := by
    refine perm_singleton.1 ((perm_ext_iff_of_nodup ?_ (nodup_singleton x)).2 fun y => ?_)
    · exact (List.Nodup.of_map _ h.nodup).filter _
    · simp only [mem_filter, decide_eq_true_eq, mem_singleton]
      refine ⟨fun hy => h.eq_of_id hy.1 hx hy.2, ?_⟩
      rintro rfl
      exact ⟨hx, rfl⟩
  rw [LinkedList.moveToFront, hself]
  rfl

theorem setValue_front (l : List (ℕ × α)) (n e : ℕ) (a b : α) :
    setValue ⟨(e, a) :: l.filter (·.1 ≠ e), n⟩ e b = ⟨(e, b) :: l.filter (·.1 ≠ e), n⟩ := by
  have hrest : (l.filter (·.1 ≠ e)).map (fun x => if x.1 = e then (e, b) else x) =
      l.filter (·.1 ≠ e) := by
    conv_rhs => rw [← map_id (l.filter (·.1 ≠ e))]
    refine map_congr_left fun x hx => if_neg ?_
    simpa using (mem_filter.1 hx).2
  simp only [setValue, map_cons, if_true, hrest]

end LinkedList

end Wavicle.Lib
