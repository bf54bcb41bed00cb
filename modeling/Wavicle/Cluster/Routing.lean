import Wavicle.Cluster.HashRing

/-! # Who owns a key

`Routes` says that a key goes to the member with the next vnode clockwise. A node that is added twice has each
of its vnodes twice, and a removal takes only one of the two away. -/

namespace Wavicle.Cluster

open Lib HashRing

/-- What a ring stands for: its members, and how many times the virtual nodes of each are in `keys`. -/
structure Membership where
  members : Finset Str
  copies : Str → ℕ

namespace Membership

def empty : Membership := ⟨∅, fun _ => 0⟩

/-- A call. The removal of a member takes away one copy. A vnode without a node looks like one of the node
`""`, so the removal of that node takes away all copies without a member. -/
def step (m : Membership) : Call → Membership
  | .add x => ⟨insert x m.members, Function.update m.copies x (m.copies x + 1)⟩
  | .remove x =>
    if x = [] then ⟨m.members.erase x, fun y => if y ∈ m.members.erase x then m.copies y else 0⟩
    else if x ∈ m.members then ⟨m.members.erase x, Function.update m.copies x (m.copies x - 1)⟩
    else m

def run (m : Membership) (calls : List Call) : Membership := calls.foldl step m

end Membership

/-- The key goes to the owner of the next vnode clockwise, and nowhere if there are no members. -/
def Routes (xxhash : Str → UInt64) (replicas : ℕ) (members : Finset Str) (key answer : Str) : Prop :=
  (answer = [] ↔ members = ∅) ∧
    (members ≠ ∅ → answer ∈ members ∧ ∃ i < replicas, ∀ x ∈ members, ∀ j < replicas,
      clockwise (xxhash key) (vnode xxhash answer i) ≤ clockwise (xxhash key) (vnode xxhash x j))

section

variable {xxhash : Str → UInt64} {names : Set Str} {m : Membership} {h : HashRing} {x : Str}

/-- No two virtual nodes have the same hash. -/
def Distinct (xxhash : Str → UInt64) (names : Set Str) (replicas : ℕ) : Prop :=
  ∀ x ∈ names, ∀ y ∈ names, ∀ i < replicas, ∀ j < replicas,
    vnode xxhash x i = vnode xxhash y j → x = y ∧ i = j

/-- The ring has the virtual nodes of its members, in order, and maps each to its member. -/
structure Represents (xxhash : Str → UInt64) (names : Set Str) (m : Membership) (h : HashRing) :
    Prop where
  sorted : h.keys.Pairwise (· ≤ ·)
  count : ∀ x ∈ names, ∀ i < h.replicas, h.keys.count (vnode xxhash x i) = m.copies x
  known : ∀ v ∈ h.keys, ∃ x ∈ names, ∃ i < h.replicas, v = vnode xxhash x i
  owner : ∀ v x, h.nodes.lookup v = some x ↔
    x ∈ m.members ∧ ∃ i < h.replicas, v = vnode xxhash x i
  named : ∀ x ∈ m.members, x ∈ names ∧ 0 < m.copies x

theorem represents_new (xxhash : Str → UInt64) (names : Set Str) (replicas : Int64) :
    Represents xxhash names .empty (.new replicas) where
  sorted := .nil
  count _ _ _ _ := rfl
  known v hv := by cases hv
  owner v x := by simp [HashRing.new, Membership.empty]
  named x hx := by simp [Membership.empty] at hx

/-! ### Adding -/

theorem replicas_add (h : HashRing) (x : Str) : (h.add xxhash x).replicas = h.replicas := by
  have hfold : ∀ (l : List ℕ) (h : HashRing),
      (l.foldl (addVnode xxhash x) h).replicas = h.replicas := by
    intro l
    induction l with
    | nil => exact fun _ => rfl
    | cons i l ih => exact fun h => ih (addVnode xxhash x h i)
  exact hfold _ h

theorem foldl_addVnode (h : HashRing) (x : Str) (n : ℕ) :
    ((List.range n).foldl (addVnode xxhash x) h).keys = h.keys ++ (List.range n).map (vnode xxhash x) ∧
      ∀ v, ((List.range n).foldl (addVnode xxhash x) h).nodes.lookup v =
        if v ∈ (List.range n).map (vnode xxhash x) then some x else h.nodes.lookup v := by
  induction n with
  | zero => simp
  | succ n ih =>
    obtain ⟨hkeys, hnodes⟩ := ih
    rw [List.range_succ, List.foldl_append, List.map_append]
    constructor
    · simp [addVnode, hkeys]
    · intro v
      simp only [List.foldl_cons, List.foldl_nil, addVnode, GoMap.lookup_insert, hnodes,
        List.mem_append, List.map_cons, List.map_nil, List.mem_singleton]
      by_cases hv : v = vnode xxhash x n
      · simp [hv]
      · simp [hv]

theorem mem_vnodes {v : UInt64} {n : ℕ} :
    v ∈ (List.range n).map (vnode xxhash x) ↔ ∃ i < n, v = vnode xxhash x i := by
  simp [eq_comm]

theorem perm_keys_add (h : HashRing) (x : Str) :
    (h.add xxhash x).keys.Perm (h.keys ++ (List.range h.replicas).map (vnode xxhash x)) := by
  have hsort : (h.add xxhash x).keys.Perm ((List.range h.replicas).foldl (addVnode xxhash x) h).keys :=
    List.perm_insertionSort _ _
  rwa [(foldl_addVnode h x h.replicas).1] at hsort

instance total_le_uint64 : Std.Total (α := UInt64) (· ≤ ·) := ⟨UInt64.le_total⟩

instance isTrans_le_uint64 : IsTrans UInt64 (· ≤ ·) := ⟨fun _ _ _ => UInt64.le_trans⟩

theorem count_vnodes (hd : Distinct xxhash names h.replicas) (hx : x ∈ names) {y : Str}
    (hy : y ∈ names) {i : ℕ} (hi : i < h.replicas) :
    ((List.range h.replicas).map (vnode xxhash x)).count (vnode xxhash y i) = if y = x then 1 else 0 := by
  split_ifs with hyx
  · subst hyx
    refine List.count_eq_one_of_mem ?_ (List.mem_map_of_mem (List.mem_range.2 hi))
    refine (List.nodup_range).map_on fun i hi j hj heq => ?_
    exact (hd y hx y hx i (List.mem_range.1 hi) j (List.mem_range.1 hj) heq).2
  · refine List.count_eq_zero.2 fun hmem => ?_
    obtain ⟨j, hj, heq⟩ := mem_vnodes.1 hmem
    exact hyx (hd y hy x hx i hi j hj heq).1

theorem Represents.add (hr : Represents xxhash names m h) (hd : Distinct xxhash names h.replicas)
    (hx : x ∈ names) : Represents xxhash names (m.step (.add x)) (h.add xxhash x) where
  sorted := List.pairwise_insertionSort _ _
  count y hy i hi := by
    rw [replicas_add] at hi
    rw [(perm_keys_add h x).count_eq, List.count_append, hr.count y hy i hi,
      count_vnodes hd hx hy hi]
    simp only [Membership.step, Function.update_apply]
    split_ifs with hyx
    · rw [hyx]
    · rfl
  known v hv := by
    rw [replicas_add]
    rcases List.mem_append.1 ((perm_keys_add h x).mem_iff.1 hv) with hv | hv
    · exact hr.known v hv
    · exact ⟨x, hx, mem_vnodes.1 hv⟩
  owner v y := by
    rw [replicas_add]
    have hlookup : (h.add xxhash x).nodes.lookup v =
        if v ∈ (List.range h.replicas).map (vnode xxhash x) then some x else h.nodes.lookup v :=
      (foldl_addVnode h x h.replicas).2 v
    rw [hlookup]
    simp only [Membership.step, Finset.mem_insert]
    split_ifs with hv
    · rw [mem_vnodes] at hv
      obtain ⟨i, hi, hvi⟩ := hv
      constructor
      · intro hxy
        obtain rfl := Option.some.inj hxy
        exact ⟨.inl rfl, i, hi, hvi⟩
      · rintro ⟨hy, j, hj, hvj⟩
        have hynames : y ∈ names := by
          rcases hy with rfl | hy
          · exact hx
          · exact (hr.named y hy).1
        rw [(hd x hx y hynames i hi j hj (hvi.symm.trans hvj)).1]
    · rw [hr.owner]
      constructor
      · exact fun hy => ⟨.inr hy.1, hy.2⟩
      · rintro ⟨rfl | hy, hi⟩
        · exact absurd (mem_vnodes.2 hi) hv
        · exact ⟨hy, hi⟩
  named y hy := by
    simp only [Membership.step, Finset.mem_insert, Function.update_apply] at hy ⊢
    split_ifs with hyx
    · subst hyx
      exact ⟨hx, Nat.succ_pos _⟩
    · exact hr.named y (hy.resolve_left hyx)

/-! ### Removing -/

/-- The loop of `Remove` deletes the first place of a vnode from the list and its entry from the map. The
other places of it no longer have a node and are kept. -/
theorem removeLoop_spec (hx : x ≠ []) : ∀ (keys : List UInt64) (nodes : GoMap UInt64 Str),
    (removeLoop x keys nodes).1.Sublist keys ∧
    (∀ v, (removeLoop x keys nodes).1.count v =
      if nodes.lookup v = some x then keys.count v - 1 else keys.count v) ∧
    ∀ v, (removeLoop x keys nodes).2.lookup v =
      if nodes.lookup v = some x ∧ v ∈ keys then none else nodes.lookup v
  | [], nodes => by simp [removeLoop]
  | k :: keys, nodes => by
    have hnode : (nodes.lookup k).getD [] = x ↔ nodes.lookup k = some x := by
      cases hk : nodes.lookup k with
      | none => simp [Ne.symm hx]
      | some y => simp
    unfold removeLoop
    split_ifs with hne
    · -- the place belongs to another node, or to none
      rw [Ne, hnode] at hne
      obtain ⟨hsub, hcount, hlookup⟩ := removeLoop_spec hx keys nodes
      refine ⟨hsub.cons_cons k, fun v => ?_, fun v => ?_⟩
      · rw [List.count_cons, List.count_cons, hcount]
        by_cases hv : k = v
        · subst hv
          simp [hne]
        · simp [hv]
      · rw [hlookup]
        by_cases hv : v = k
        · subst hv
          simp [hne]
        · simp [hv]
    · rw [Ne, not_not, hnode] at hne
      obtain ⟨hsub, hcount, hlookup⟩ := removeLoop_spec hx keys (nodes.erase k)
      refine ⟨hsub.cons k, fun v => ?_, fun v => ?_⟩
      · rw [hcount, GoMap.lookup_erase, List.count_cons]
        by_cases hv : v = k
        · subst hv
          simp [hne]
        · simp [hv, Ne.symm hv]
      · rw [hlookup, GoMap.lookup_erase]
        by_cases hv : v = k
        · subst hv
          simp [hne]
        · simp [hv]

theorem removeLoop_nil : ∀ (keys : List UInt64) (nodes : GoMap UInt64 Str),
    (removeLoop [] keys nodes).1 = keys.filter (fun v => (nodes.lookup v).getD [] ≠ []) ∧
    ∀ v, (removeLoop [] keys nodes).2.lookup v =
      if nodes.lookup v = some [] ∧ v ∈ keys then none else nodes.lookup v
  | [], nodes => by simp [removeLoop]
  | k :: keys, nodes => by
    unfold removeLoop
    split_ifs with hne
    · obtain ⟨hkeep, hlookup⟩ := removeLoop_nil keys nodes
      refine ⟨?_, fun v => ?_⟩
      · rw [List.filter_cons_of_pos (by simpa using hne), ← hkeep]
      · rw [hlookup]
        by_cases hv : v = k
        · subst hv
          have hsome : nodes.lookup v ≠ some [] := fun hsome => hne (by rw [hsome]; rfl)
          simp [hsome]
        · simp [hv]
    · obtain ⟨hkeep, hlookup⟩ := removeLoop_nil keys (nodes.erase k)
      rw [not_not] at hne
      -- what the map answers for `k` is the same before and after the deletion
      have hsame : ∀ v, ((nodes.erase k).lookup v).getD [] = (nodes.lookup v).getD [] := fun v => by
        rw [GoMap.lookup_erase]
        by_cases hv : v = k
        · subst hv
          simp [hne]
        · simp [hv]
      refine ⟨?_, fun v => ?_⟩
      · rw [List.filter_cons_of_neg (by simp [hne]), hkeep]
        simp only [hsame]
      · rw [hlookup, GoMap.lookup_erase]
        by_cases hv : v = k
        · subst hv
          cases hk : nodes.lookup v with
          | none => simp
          | some y =>
            rw [hk, Option.getD_some] at hne
            simp [hne]
        · simp [hv]

theorem Represents.vnode_mem (hr : Represents xxhash names m h) (hx : x ∈ m.members) {i : ℕ}
    (hi : i < h.replicas) : vnode xxhash x i ∈ h.keys := by
  obtain ⟨hnames, hpos⟩ := hr.named x hx
  rw [← List.count_pos_iff, hr.count x hnames i hi]
  exact hpos

theorem Represents.owner_erase (hr : Represents xxhash names m h) {nodes : GoMap UInt64 Str}
    (hlookup : ∀ v, nodes.lookup v =
      if h.nodes.lookup v = some x ∧ v ∈ h.keys then none else h.nodes.lookup v) (v : UInt64) (y : Str) :
    nodes.lookup v = some y ↔ y ∈ m.members.erase x ∧ ∃ i < h.replicas, v = vnode xxhash y i := by
  rw [hlookup]
  simp only [Finset.mem_erase]
  split_ifs with hv
  · refine iff_of_false (by simp) ?_
    rintro ⟨⟨hyx, hy⟩, hi⟩
    have hvy := (hr.owner v y).2 ⟨hy, hi⟩
    exact hyx (Option.some.inj (hvy.symm.trans hv.1))
  · rw [hr.owner]
    refine ⟨fun hy => ⟨⟨?_, hy.1⟩, hy.2⟩, fun hy => ⟨hy.1.2, hy.2⟩⟩
    rintro rfl
    obtain ⟨hym, i, hi, rfl⟩ := hy
    exact hv ⟨(hr.owner _ _).2 ⟨hym, i, hi, rfl⟩, hr.vnode_mem hym hi⟩

theorem Represents.remove_nil (hr : Represents xxhash names m h) (hd : Distinct xxhash names h.replicas) :
    Represents xxhash names (m.step (.remove [])) (h.remove []) := by
  obtain ⟨hkeep, hlookup⟩ := removeLoop_nil h.keys h.nodes
  have hstep : m.step (.remove []) =
      ⟨m.members.erase [], fun y => if y ∈ m.members.erase [] then m.copies y else 0⟩ := by
    rw [Membership.step, if_pos rfl]
  have hkeys : (h.remove []).keys = h.keys.filter (fun v => (h.nodes.lookup v).getD [] ≠ []) := hkeep
  have hsub : (h.remove []).keys.Sublist h.keys := hkeys ▸ List.filter_sublist
  -- a place is kept if it belongs to a member with a name
  have hkept : ∀ y ∈ names, ∀ i < h.replicas,
      (h.nodes.lookup (vnode xxhash y i)).getD [] ≠ [] ↔ y ∈ m.members.erase [] := fun y hy i hi => by
    rw [Finset.mem_erase]
    cases hown : h.nodes.lookup (vnode xxhash y i) with
    | none =>
      refine iff_of_false (by simp) fun hym => ?_
      rw [(hr.owner _ y).2 ⟨hym.2, i, hi, rfl⟩] at hown
      cases hown
    | some z =>
      obtain ⟨hz, j, hj, heq⟩ := (hr.owner _ z).1 hown
      obtain ⟨rfl, -⟩ := hd y hy z (hr.named z hz).1 i hi j hj heq
      simp [hz]
  rw [hstep]
  refine ⟨hr.sorted.sublist hsub, fun y hy i hi => ?_, fun v hv => hr.known v (hsub.mem hv),
    hr.owner_erase hlookup, fun y hy => ?_⟩
  · dsimp only
    rw [hkeys]
    split_ifs with hym
    · rw [List.count_filter (by simpa using (hkept y hy i hi).2 hym)]
      exact hr.count y hy i hi
    · refine List.count_eq_zero.2 fun hmem => hym ((hkept y hy i hi).1 ?_)
      exact of_decide_eq_true (List.mem_filter.1 hmem).2
  · obtain ⟨hynames, hpos⟩ := hr.named y (Finset.mem_of_mem_erase hy)
    have hcopies : (if y ∈ m.members.erase [] then m.copies y else 0) = m.copies y := if_pos hy
    exact ⟨hynames, hpos.trans_eq hcopies.symm⟩

theorem Represents.remove (hr : Represents xxhash names m h) (hd : Distinct xxhash names h.replicas)
    (hx : x ∈ names) (hne : x ≠ []) : Represents xxhash names (m.step (.remove x)) (h.remove x) := by
  obtain ⟨hsub, hcount, hlookup⟩ := removeLoop_spec hne h.keys h.nodes
  by_cases hxm : x ∈ m.members
  · have hstep : m.step (.remove x) =
        ⟨m.members.erase x, Function.update m.copies x (m.copies x - 1)⟩ :=
      (if_neg hne).trans (if_pos hxm)
    rw [hstep]
    refine ⟨hr.sorted.sublist hsub, fun y hy i hi => ?_, fun v hv => hr.known v (hsub.mem hv),
      hr.owner_erase hlookup, fun y hy => ?_⟩
    · have hown : h.nodes.lookup (vnode xxhash y i) = some x ↔ y = x := by
        rw [hr.owner]
        constructor
        · rintro ⟨-, j, hj, heq⟩
          exact (hd y hy x hx i hi j hj heq).1
        · rintro rfl
          exact ⟨hxm, i, hi, rfl⟩
      have hnow : (h.remove x).keys.count (vnode xxhash y i) =
          if h.nodes.lookup (vnode xxhash y i) = some x then h.keys.count (vnode xxhash y i) - 1
          else h.keys.count (vnode xxhash y i) := hcount _
      rw [hnow, hr.count y hy i hi]
      simp only [hown, Function.update_apply]
      split_ifs with hyx
      · rw [hyx]
      · rfl
    · simp only [Finset.mem_erase] at hy
      simp only [Function.update_of_ne hy.1]
      exact hr.named y hy.2
  · have hstep : m.step (.remove x) = m := (if_neg hne).trans (if_neg hxm)
    have hnot : ∀ v, h.nodes.lookup v ≠ some x := fun v hv => hxm ((hr.owner v x).1 hv).1
    rw [hstep]
    refine ⟨hr.sorted.sublist hsub, fun y hy i hi => ?_, fun v hv => hr.known v (hsub.mem hv),
      fun v y => ?_, hr.named⟩
    · have hnow : (h.remove x).keys.count (vnode xxhash y i) = h.keys.count (vnode xxhash y i) :=
        (hcount _).trans (if_neg (hnot _))
      rw [hnow]
      exact hr.count y hy i hi
    · have hnow : (h.remove x).nodes.lookup v = h.nodes.lookup v :=
        (hlookup v).trans (if_neg fun hv => hnot v hv.1)
      rw [hnow]
      exact hr.owner v y

theorem Represents.step (hr : Represents xxhash names m h) (hd : Distinct xxhash names h.replicas)
    {call : Call} (hx : call.node ∈ names) :
    Represents xxhash names (m.step call) (h.step xxhash call) := by
  cases call with
  | add x => exact hr.add hd hx
  | remove x =>
    by_cases hne : x = []
    · subst hne
      exact hr.remove_nil hd
    · exact hr.remove hd hx hne

theorem replicas_step (h : HashRing) (call : Call) : (h.step xxhash call).replicas = h.replicas := by
  cases call with
  | add x => exact replicas_add h x
  | remove x => rfl

theorem Represents.run {calls : List Call} (hr : Represents xxhash names m h)
    (hd : Distinct xxhash names h.replicas) (hcalls : ∀ call ∈ calls, call.node ∈ names) :
    Represents xxhash names (m.run calls) (h.run xxhash calls) := by
  induction calls generalizing m h with
  | nil => exact hr
  | cons call calls ih =>
    have hx := hcalls call (.head _)
    have hd' : Distinct xxhash names (h.step xxhash call).replicas := by rwa [replicas_step]
    exact ih (hr.step hd hx) hd' (List.forall_mem_cons.1 hcalls).2

theorem replicas_run (xxhash : Str → UInt64) (h : HashRing) (calls : List Call) :
    (h.run xxhash calls).replicas = h.replicas := by
  induction calls generalizing h with
  | nil => rfl
  | cons call calls ih => exact (ih _).trans (replicas_step h call)

/-! ### Routing -/

theorem copies_run {calls : List Call} (hx : ∀ call ∈ calls, call.node ≠ x) (hm : m.copies x = 0) :
    (m.run calls).copies x = 0 := by
  induction calls generalizing m with
  | nil => exact hm
  | cons call calls ih =>
    refine ih (List.forall_mem_cons.1 hx).2 ?_
    have hne := hx call (.head _)
    cases call with
    | add y => exact (Function.update_of_ne (Ne.symm hne) _ _).trans hm
    | remove y =>
      unfold Membership.step
      dsimp only
      split_ifs with hy hym
      · dsimp only
        rw [hm, ite_self]
      · exact (Function.update_of_ne (Ne.symm hne) _ _).trans hm
      · exact hm

theorem Represents.get (hr : Represents xxhash names m h) (key : Str) :
    (h.keys = [] ∧ h.get xxhash key = []) ∨ ∃ v ∈ h.keys,
      (∀ w ∈ h.keys, clockwise (xxhash key) v ≤ clockwise (xxhash key) w) ∧
        h.get xxhash key = (h.nodes.lookup v).getD [] := by
  rw [get_eq hr.sorted]
  cases hplace : (h.keys.find? (xxhash key ≤ ·)).or h.keys.head? with
  | none =>
    rw [Option.or_eq_none_iff, List.head?_eq_none_iff] at hplace
    exact .inl ⟨hplace.2, rfl⟩
  | some v =>
    obtain ⟨hv, hfirst⟩ := clockwise_le hr.sorted hplace
    exact .inr ⟨v, hv, hfirst, rfl⟩

theorem Represents.routes_of_empty (hr : Represents xxhash names m h) (hm : m.members = ∅) (key : Str) :
    Routes xxhash h.replicas m.members key (h.get xxhash key) := by
  have hget : h.get xxhash key = [] := by
    rcases hr.get key with ⟨-, hget⟩ | ⟨v, -, -, hget⟩
    · exact hget
    · have hnone : h.nodes.lookup v = none := by
        refine Option.eq_none_iff_forall_ne_some.2 fun x hx => ?_
        have hmem := ((hr.owner v x).1 hx).1
        simp [hm] at hmem
      rw [hget, hnone]
      rfl
  exact ⟨iff_of_true hget hm, fun hne => absurd hm hne⟩

theorem Represents.routes (hr : Represents xxhash names m h) (hpos : 0 < h.replicas)
    (hne : [] ∉ m.members) (hm : m.members ≠ ∅) (hcopies : ∀ x ∉ m.members, m.copies x = 0)
    (key : Str) : Routes xxhash h.replicas m.members key (h.get xxhash key) := by
  rcases hr.get key with ⟨hnil, -⟩ | ⟨v, hv, hfirst, hget⟩
  · obtain ⟨y, hy⟩ := Finset.nonempty_iff_ne_empty.2 hm
    have := hr.vnode_mem hy hpos
    simp [hnil] at this
  · obtain ⟨x, hx, i, hi, rfl⟩ := hr.known v hv
    have hxm : x ∈ m.members := by
      by_contra hxm
      have hcount := List.count_pos_iff.2 hv
      rw [hr.count x hx i hi, hcopies x hxm] at hcount
      omega
    rw [(hr.owner _ x).2 ⟨hxm, i, hi, rfl⟩, Option.getD_some] at hget
    rw [hget]
    refine ⟨iff_of_false ?_ hm, fun _ => ⟨hxm, i, hi, fun y hy j hj => hfirst _ (hr.vnode_mem hy hj)⟩⟩
    rintro rfl
    exact hne hxm

theorem Represents.get_label (hr : Represents xxhash names m h) (hpos : 0 < h.replicas) (hx : x ∈ names)
    (hcopies : m.copies x ≠ 0) :
    h.get xxhash (label x 0) = (h.nodes.lookup (vnode xxhash x 0)).getD [] := by
  have hplace : vnode xxhash x 0 ∈ h.keys := by
    rw [← List.count_pos_iff, hr.count x hx 0 hpos]
    omega
  rcases hr.get (label x 0) with ⟨hnil, -⟩ | ⟨v, hv, hfirst, hget⟩
  · simp [hnil] at hplace
  · have hself : clockwise (vnode xxhash x 0) (vnode xxhash x 0) = 0 := by
      rw [clockwise_of_le (UInt64.le_refl _)]
      exact Nat.sub_self _
    have hzero : clockwise (vnode xxhash x 0) v = 0 := by
      have hle : clockwise (vnode xxhash x 0) v ≤ clockwise (vnode xxhash x 0) (vnode xxhash x 0) :=
        hfirst _ hplace
      omega
    rw [hget, eq_of_clockwise_eq_zero hzero]

theorem Represents.get_dangling (hr : Represents xxhash names m h) (hd : Distinct xxhash names h.replicas)
    (hpos : 0 < h.replicas) (hx : x ∈ names) (hxm : x ∉ m.members) (hcopies : m.copies x ≠ 0) :
    h.get xxhash (label x 0) = [] := by
  have hnone : h.nodes.lookup (vnode xxhash x 0) = none := by
    refine Option.eq_none_iff_forall_ne_some.2 fun y hy => ?_
    obtain ⟨hym, i, hi, heq⟩ := (hr.owner _ y).1 hy
    obtain ⟨rfl, -⟩ := hd x hx y (hr.named y hym).1 0 hpos i hi heq
    exact hxm hym
  rw [hr.get_label hpos hx hcopies, hnone]
  rfl

theorem replicas_new (replicas : Int64) :
    0 < (HashRing.new replicas).replicas ∧ (HashRing.new replicas).replicas < 10 ^ 20 := by
  unfold HashRing.new
  dsimp only
  split_ifs with hle
  · exact ⟨by decide, by decide⟩
  · have hpos : 0 < replicas.toInt := by
      have := Int64.le_iff_toInt_le.not.1 hle
      simpa using this
    have hlt : replicas.toInt < 2 ^ 63 := replicas.toInt_lt
    omega

/-- **Routing depends only on membership**, if no vnodes are left of nodes that are not members: after any
calls, every key goes to the member with the next vnode clockwise exactly if there are no members at all, or
the node `""` is not a member and no other node has vnodes without being one. -/
theorem routes_iff (xxhash : Str → UInt64) (replicas : Int64) (calls : List Call)
    (hhash : ∀ c ∈ calls, ∀ c' ∈ calls, ∀ i < (HashRing.new replicas).replicas,
      ∀ j < (HashRing.new replicas).replicas,
      xxhash (label c.node i) = xxhash (label c'.node j) → label c.node i = label c'.node j) :
    (∀ key, Routes xxhash (HashRing.new replicas).replicas (Membership.empty.run calls).members key
      (((HashRing.new replicas).run xxhash calls).get xxhash key)) ↔
    (Membership.empty.run calls).members = ∅ ∨ [] ∉ (Membership.empty.run calls).members ∧
      ∀ x ∉ (Membership.empty.run calls).members, (Membership.empty.run calls).copies x = 0 := by
  obtain ⟨hpos, hbound⟩ := replicas_new replicas
  let names : Set Str := {x | ∃ call ∈ calls, call.node = x}
  have hd : Distinct xxhash names (HashRing.new replicas).replicas := by
    rintro _ ⟨c, hc, rfl⟩ _ ⟨c', hc', rfl⟩ i hi j hj heq
    exact label_inj (hi.trans hbound) (hj.trans hbound) (hhash c hc c' hc' i hi j hj heq)
  have hr := (represents_new xxhash names replicas).run hd fun call hcall => ⟨call, hcall, rfl⟩
  have hsame := replicas_run xxhash (HashRing.new replicas) calls
  rw [← hsame] at hpos hd ⊢
  constructor
  · intro hroutes
    refine or_iff_not_imp_left.2 fun hm => ⟨fun hnil => ?_, fun x hxm => ?_⟩
    · -- the node `""` owns the place of its own vnode
      obtain ⟨hnames, hcopies⟩ := hr.named [] hnil
      have hget := hr.get_label hpos hnames hcopies.ne'
      rw [(hr.owner _ []).2 ⟨hnil, 0, hpos, rfl⟩, Option.getD_some] at hget
      exact hm ((hroutes (label [] 0)).1.1 hget)
    · by_contra hcopies
      have hx : x ∈ names := by
        by_contra hx
        exact hcopies (copies_run (fun call hcall heq => hx ⟨call, hcall, heq⟩) rfl)
      exact hm ((hroutes (label x 0)).1.1 (hr.get_dangling hd hpos hx hxm hcopies))
  · rintro (hm | ⟨hnil, hcopies⟩) key
    · exact hr.routes_of_empty hm key
    · by_cases hm : (Membership.empty.run calls).members = ∅
      · exact hr.routes_of_empty hm key
      · exact hr.routes hpos hnil hm hcopies key

end

/-! ### Two rings -/

def firstByte (s : Str) : UInt64 := (s.headD 0).toUInt64

theorem firstByte_label {calls : List Call} (h : ∀ c ∈ calls, c.node = str "a" ∨ c.node = str "b") :
    ∀ c ∈ calls, ∀ c' ∈ calls, ∀ i < (HashRing.new 1).replicas, ∀ j < (HashRing.new 1).replicas,
      firstByte (label c.node i) = firstByte (label c'.node j) → label c.node i = label c'.node j := by
  intro c hc c' hc' i hi j hj
  have hi : i = 0 := Nat.lt_one_iff.1 hi
  have hj : j = 0 := Nat.lt_one_iff.1 hj
  rw [hi, hj]
  rcases h c hc with hnode | hnode <;> rcases h c' hc' with hnode' | hnode' <;> rw [hnode, hnode'] <;> decide

def addedTwice : List Call := [.add (str "a"), .add (str "a"), .add (str "b"), .remove (str "a")]

/-- Then a key at the place of its vnode goes nowhere, and not to the member `b`. -/
theorem removed_node_still_owns : (∀ c ∈ addedTwice, ∀ c' ∈ addedTwice, ∀ i < (HashRing.new 1).replicas,
      ∀ j < (HashRing.new 1).replicas,
      firstByte (label c.node i) = firstByte (label c'.node j) → label c.node i = label c'.node j) ∧
    ((HashRing.new 1).run firstByte addedTwice).get firstByte (str "a") = [] ∧
    (Membership.empty.run addedTwice).members = {str "b"} ∧
    ¬ Routes firstByte (HashRing.new 1).replicas (Membership.empty.run addedTwice).members (str "a")
      (((HashRing.new 1).run firstByte addedTwice).get firstByte (str "a")) := by
  have hget : ((HashRing.new 1).run firstByte addedTwice).get firstByte (str "a") = [] := by decide +kernel
  have hmembers : (Membership.empty.run addedTwice).members = {str "b"} := by decide
  refine ⟨firstByte_label ?_, hget, hmembers, fun hroutes => ?_⟩
  · simp [addedTwice, Call.node]
  · have hempty := hroutes.1.1 hget
    rw [hmembers] at hempty
    exact Finset.singleton_ne_empty _ hempty

theorem routes_iff_added_once : Routes firstByte (HashRing.new 1).replicas
      (Membership.empty.run [.add (str "a"), .add (str "b"), .remove (str "a")]).members (str "a")
      (((HashRing.new 1).run firstByte [.add (str "a"), .add (str "b"), .remove (str "a")]).get
        firstByte (str "a")) := by
  have hmembers : (Membership.empty.run [.add (str "a"), .add (str "b"), .remove (str "a")]).members =
      {str "b"} := by decide
  refine (routes_iff firstByte 1 [.add (str "a"), .add (str "b"), .remove (str "a")] ?_).2
    (.inr ⟨?_, fun x hx => ?_⟩) (str "a")
  · exact firstByte_label (by simp [Call.node])
  · rw [hmembers]
    decide
  · rw [hmembers, Finset.mem_singleton] at hx
    by_cases hxa : x = str "a"
    · subst hxa
      decide
    · refine copies_run (fun call hcall => ?_) rfl
      simp only [List.mem_cons, List.not_mem_nil, or_false] at hcall
      rcases hcall with rfl | rfl | rfl
      · exact Ne.symm hxa
      · exact Ne.symm hx
      · exact Ne.symm hxa

end Wavicle.Cluster
