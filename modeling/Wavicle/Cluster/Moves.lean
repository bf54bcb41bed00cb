import Wavicle.Cluster.Routing

/-! # Which keys move

The owner of a key has the vnode next to it clockwise. No two vnodes are equally far, so there is one such
owner, and another member can only take the key itself or lose it. -/

namespace Wavicle.Cluster

open Lib HashRing

/-- Some vnode of the owner is next to the key, clockwise. -/
def Next (xxhash : Str → UInt64) (replicas : ℕ) (members : Finset Str) (key owner : Str) : Prop :=
  owner ∈ members ∧ ∃ i < replicas, ∀ x ∈ members, ∀ j < replicas,
    clockwise (xxhash key) (vnode xxhash owner i) ≤ clockwise (xxhash key) (vnode xxhash x j)

/-- Each member has one copy of its vnodes, and nobody else has any. -/
def Membership.Single (m : Membership) : Prop := ∀ y, m.copies y = if y ∈ m.members then 1 else 0

/-- No two labels of the nodes have the same hash. -/
def NoCollision (xxhash : Str → UInt64) (replicas : ℕ) (nodes : List Str) : Prop :=
  ∀ y ∈ nodes, ∀ z ∈ nodes, ∀ i < replicas, ∀ j < replicas,
    xxhash (label y i) = xxhash (label z j) → label y i = label z j

section

variable {xxhash : Str → UInt64} {names : Set Str} {m m' : Membership} {h h' : HashRing} {x : Str}

theorem clockwise_inj {k v w : UInt64} (h : clockwise k v = clockwise k w) : v = w :=
  sub_left_injective (UInt64.toNat_inj.1 h)

theorem Next.subset {replicas : ℕ} {members members' : Finset Str} {key owner : Str}
    (hn : Next xxhash replicas members' key owner) (hsub : members ⊆ members') (ho : owner ∈ members) :
    Next xxhash replicas members key owner := by
  obtain ⟨-, i, hi, hfirst⟩ := hn
  exact ⟨ho, i, hi, fun x hx => hfirst x (hsub hx)⟩

theorem Next.unique {replicas : ℕ} {members : Finset Str} {key a b : Str}
    (hd : Distinct xxhash names replicas) (hnames : ∀ x ∈ members, x ∈ names)
    (ha : Next xxhash replicas members key a) (hb : Next xxhash replicas members key b) : a = b := by
  obtain ⟨ham, i, hi, hafirst⟩ := ha
  obtain ⟨hbm, j, hj, hbfirst⟩ := hb
  have heq : clockwise (xxhash key) (vnode xxhash a i) = clockwise (xxhash key) (vnode xxhash b j) :=
    Nat.le_antisymm (hafirst b hbm j hj) (hbfirst a ham i hi)
  exact (hd a (hnames a ham) b (hnames b hbm) i hi j hj (clockwise_inj heq)).1

/-! ### Memberships without copies -/

theorem Membership.Single.add (hs : m.Single) (hx : x ∉ m.members) : (m.step (.add x)).Single := by
  intro y
  simp only [Membership.step, Function.update_apply, Finset.mem_insert]
  by_cases hyx : y = x
  · have hzero : m.copies x = 0 := (hs x).trans (if_neg hx)
    simp [hyx, hzero]
  · simpa [hyx] using hs y

theorem Membership.Single.remove (hs : m.Single) (hx : x ∈ m.members) :
    (m.step (.remove x)).members = m.members.erase x ∧ (m.step (.remove x)).Single := by
  have hone : m.copies x = 1 := (hs x).trans (if_pos hx)
  unfold Membership.step Membership.Single
  dsimp only
  split_ifs with hnil
  · refine ⟨rfl, fun y => ?_⟩
    dsimp only
    split_ifs with hy
    · exact (hs y).trans (if_pos (Finset.mem_of_mem_erase hy))
    · rfl
  · refine ⟨rfl, fun y => ?_⟩
    by_cases hyx : y = x
    · simp [hyx, hone]
    · simpa [hyx] using hs y

theorem run_nodes {nodes : List Str} (hnodes : nodes.Nodup) :
    (Membership.empty.run (nodes.map .add)).Single ∧
      ∀ y, y ∈ (Membership.empty.run (nodes.map .add)).members ↔ y ∈ nodes := by
  induction nodes using List.reverseRecOn with
  | nil => exact ⟨fun _ => rfl, fun y => by simp [Membership.run, Membership.empty]⟩
  | append_singleton nodes x ih =>
    obtain ⟨hx, hnodes⟩ := List.nodup_cons.1 (List.nodup_append_comm.1 hnodes)
    obtain ⟨hs, hmem⟩ := ih hnodes
    have hstep : Membership.empty.run ((nodes ++ [x]).map .add) =
        (Membership.empty.run (nodes.map .add)).step (.add x) := by simp [Membership.run]
    rw [hstep]
    refine ⟨hs.add (mt (hmem x).1 hx), fun y => ?_⟩
    simp [Membership.step, hmem, or_comm]

/-! ### Answers -/

theorem Represents.next (hr : Represents xxhash names m h) (hs : m.Single) (hpos : 0 < h.replicas)
    (hm : m.members.Nonempty) (key : Str) :
    Next xxhash h.replicas m.members key (h.get xxhash key) := by
  rcases hr.get key with ⟨hnil, -⟩ | ⟨v, hv, hfirst, hget⟩
  · obtain ⟨y, hy⟩ := hm
    have := hr.vnode_mem hy hpos
    simp [hnil] at this
  · obtain ⟨y, hy, i, hi, rfl⟩ := hr.known v hv
    have hym : y ∈ m.members := by
      by_contra hym
      have hcount := List.count_pos_iff.2 hv
      rw [hr.count y hy i hi, hs y, if_neg hym] at hcount
      omega
    rw [(hr.owner _ y).2 ⟨hym, i, hi, rfl⟩, Option.getD_some] at hget
    rw [hget]
    exact ⟨hym, i, hi, fun z hz j hj => hfirst _ (hr.vnode_mem hz hj)⟩

section

variable (hr : Represents xxhash names m h) (hs : m.Single) (hd : Distinct xxhash names h.replicas)
  (hpos : 0 < h.replicas)
include hr hs hd hpos

/-- A ring answers as a ring with more members does, if that one answers with one of its members. -/
theorem Represents.get_eq_of_subset (hr' : Represents xxhash names m' h') (hs' : m'.Single)
    (hsame : h'.replicas = h.replicas) (hsub : m.members ⊆ m'.members) {key : Str}
    (hown : h'.get xxhash key ∈ m.members) : h.get xxhash key = h'.get xxhash key := by
  have hnext := hr.next hs hpos ⟨_, hown⟩ key
  have hnext' := hr'.next hs' (hsame ▸ hpos) ⟨_, hsub hown⟩ key
  rw [hsame] at hnext'
  exact hnext.unique hd (fun x hx => (hr.named x hx).1) (hnext'.subset hsub hown)

theorem Represents.get_add (hx : x ∈ names) (hxm : x ∉ m.members) (key : Str) :
    (h.add xxhash x).get xxhash key = h.get xxhash key ∨ (h.add xxhash x).get xxhash key = x := by
  have hsame := @replicas_add xxhash h x
  have hadd := hr.add hd hx
  refine or_iff_not_imp_right.2 fun hne => ?_
  have hown := (hadd.next (hs.add hxm) (hsame ▸ hpos) (Finset.insert_nonempty _ _) key).1
  have hown := (Finset.mem_insert.1 hown).resolve_left hne
  exact (hr.get_eq_of_subset hs hd hpos hadd (hs.add hxm) hsame (Finset.subset_insert _ _) hown).symm

theorem Represents.get_congr (hr' : Represents xxhash names m' h') (hs' : m'.Single)
    (hsame : h'.replicas = h.replicas) (hmembers : m'.members = m.members) (key : Str) :
    h'.get xxhash key = h.get xxhash key := by
  by_cases hm : m.members.Nonempty
  · refine (hr.get_eq_of_subset hs hd hpos hr' hs' hsame hmembers.ge ?_).symm
    have hown := (hr'.next hs' (hsame ▸ hpos) (hmembers ▸ hm) key).1
    rwa [hmembers] at hown
  · have hm := Finset.not_nonempty_iff_eq_empty.1 hm
    have hnone := (hr.routes_of_empty hm key).1.2 hm
    exact ((hr'.routes_of_empty (hmembers.trans hm) key).1.2 (hmembers.trans hm)).trans hnone.symm

theorem Represents.get_add_remove (hx : x ∈ names) (hxm : x ∉ m.members) (key : Str) :
    ((h.add xxhash x).remove x).get xxhash key = h.get xxhash key := by
  have hsame := @replicas_add xxhash h x
  have hback := (hr.add hd hx).step (hsame.symm ▸ hd) (show Call.node (.remove x) ∈ names from hx)
  obtain ⟨hmembers, hsback⟩ := (hs.add hxm).remove (Finset.mem_insert_self x _)
  exact hr.get_congr hs hd hpos hback hsback hsame (hmembers.trans (Finset.erase_insert hxm)) key

theorem Represents.get_remove (hxm : x ∈ m.members) {key : Str} (hne : h.get xxhash key ≠ x) :
    (h.remove x).get xxhash key = h.get xxhash key := by
  have hx : Call.node (.remove x) ∈ names := (hr.named x hxm).1
  obtain ⟨hmembers, hsless⟩ := hs.remove hxm
  refine (hr.step hd hx).get_eq_of_subset hsless hd hpos hr hs rfl (hmembers ▸ Finset.erase_subset _ _) ?_
  rw [hmembers]
  exact Finset.mem_erase.2 ⟨hne, (hr.next hs hpos ⟨x, hxm⟩ key).1⟩

end

theorem NoCollision.distinct {replicas : Int64} {nodes : List Str}
    (h : NoCollision xxhash (HashRing.new replicas).replicas nodes) :
    Distinct xxhash {y | y ∈ nodes} (HashRing.new replicas).replicas := by
  have hbound := (replicas_new replicas).2
  intro y hy z hz i hi j hj heq
  exact label_inj (hi.trans hbound) (hj.trans hbound) (h y hy z hz i hi j hj heq)

theorem represents_nodes {replicas : Int64} {nodes : List Str}
    (hd : Distinct xxhash names (HashRing.new replicas).replicas) (hnames : ∀ y ∈ nodes, y ∈ names) :
    Represents xxhash names (Membership.empty.run (nodes.map .add))
      ((HashRing.new replicas).run xxhash (nodes.map .add)) := by
  refine (represents_new xxhash names replicas).run hd fun call hcall => ?_
  obtain ⟨y, hy, rfl⟩ := List.mem_map.1 hcall
  exact hnames y hy

end

variable (xxhash : Str → UInt64) (replicas : Int64)

/-- **Only what must move moves.** In a ring of distinct nodes, a new node takes some of the keys and the
others stay; the keys of a removed node move and the others stay; and a new node that is removed again leaves
every answer as it was. -/
theorem moves_only_to_or_from {nodes : List Str} (hnodes : nodes.Nodup) {x : Str}
    (hhash : NoCollision xxhash (HashRing.new replicas).replicas (x :: nodes)) (key : Str) :
    let ring := (HashRing.new replicas).run xxhash (nodes.map .add)
    (x ∉ nodes → ((ring.add xxhash x).get xxhash key = ring.get xxhash key ∨
        (ring.add xxhash x).get xxhash key = x) ∧
      ((ring.add xxhash x).remove x).get xxhash key = ring.get xxhash key) ∧
    (x ∈ nodes → ring.get xxhash key ≠ x → (ring.remove x).get xxhash key = ring.get xxhash key) := by
  intro ring
  have hd := hhash.distinct
  have hr := represents_nodes hd fun y hy => List.mem_cons_of_mem x hy
  obtain ⟨hs, hmem⟩ := run_nodes hnodes
  have hpos := (replicas_new replicas).1
  rw [← replicas_run xxhash _ (nodes.map .add)] at hd hpos
  refine ⟨fun hnew => ?_, fun hold => hr.get_remove hs hd hpos ((hmem x).2 hold)⟩
  have hnew := mt (hmem x).1 hnew
  exact ⟨hr.get_add hs hd hpos (.head _) hnew key, hr.get_add_remove hs hd hpos (.head _) hnew key⟩

theorem noCollision_ab :
    NoCollision firstByte (HashRing.new 1).replicas [str "b", str "a"] := fun y hy z hz =>
  @firstByte_label [.add (str "b"), .add (str "a")] (by simp [Call.node]) (.add y) (by simpa using hy)
    (.add z) (by simpa using hz)

/-- The node `b` takes its key from `a`, which has it again afterwards. -/
theorem moves_to_new_node :
    let ring := (HashRing.new 1).run firstByte ([str "a"].map .add)
    ring.get firstByte (str "b") = str "a" ∧
      (ring.add firstByte (str "b")).get firstByte (str "b") = str "b" ∧
      ((ring.add firstByte (str "b")).remove (str "b")).get firstByte (str "b") = str "a" := by
  intro ring
  have hbefore : ring.get firstByte (str "b") = str "a" := by decide +kernel
  have hafter : (ring.add firstByte (str "b")).get firstByte (str "b") = str "b" := by decide +kernel
  have hmoves := moves_only_to_or_from firstByte 1 (by decide) noCollision_ab (str "b")
  exact ⟨hbefore, hafter, (hmoves.1 (by decide)).2.trans hbefore⟩

/-- **Routers agree without a coordinator**: the order in which they have heard of the nodes is not seen in
their answers. -/
theorem routers_agree {nodes nodes' : List Str} (hnodes : nodes.Nodup) (hperm : nodes.Perm nodes')
    (hhash : NoCollision xxhash (HashRing.new replicas).replicas nodes) (key : Str) :
    ((HashRing.new replicas).run xxhash (nodes'.map .add)).get xxhash key =
      ((HashRing.new replicas).run xxhash (nodes.map .add)).get xxhash key := by
  have hd := hhash.distinct
  have hr := represents_nodes hd fun y hy => hy
  have hr' := represents_nodes hd fun y hy => hperm.mem_iff.2 hy
  obtain ⟨hs, hmem⟩ := run_nodes hnodes
  obtain ⟨hs', hmem'⟩ := run_nodes (hperm.nodup hnodes)
  have hpos := (replicas_new replicas).1
  rw [← replicas_run xxhash _ (nodes.map .add)] at hd hpos
  refine hr.get_congr hs hd hpos hr' hs' ?_ (Finset.ext fun y => ?_) key
  · rw [replicas_run, replicas_run]
  · rw [hmem, hmem', hperm.mem_iff]

theorem routers_agree_ab :
    ((HashRing.new 1).run firstByte ([str "a", str "b"].map .add)).get firstByte (str "b") = str "b" :=
  (routers_agree firstByte 1 (by decide) (.swap _ _ []) noCollision_ab (str "b")).trans (by decide +kernel)

end Wavicle.Cluster
