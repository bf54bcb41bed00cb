import Wavicle.Storage.ReadYourWrite
import Wavicle.Lib.NewestWins

/-! # Concurrent appends to one path

`AppendAtom` mints its atom before it takes the lock of the shard, and the guard on the clock drops an atom that
comes too late. The guard on the content drops an atom, too, and leaves the older one with its older clock.

* `Racing.Step`: the two atomic steps of the calls on one path; `Completes`: all calls have returned.
* `NewestWins`: whatever the interleaving, the call that minted last determines the resident atom.
* `exists_completes_iff`: the interleavings come to the orders in which the atoms are inserted.
* `SettledOver`, `newestWins_iff`: when the newest call wins, by the resident atom and the calls. -/

namespace Wavicle.Storage

open Lib Wavicle.Core List

section

variable {ι H : Type} [DecidableEq H] [Hashing H]

/-- One call of `AppendAtom` on the path, with the instant at which it mints its atom. -/
structure Write (ι H : Type) where
  expr : Expr ι H
  expiresAt : Time
  mintedAt : Time

/-- The two calls have the content that `sameAtomContent` compares. -/
def Write.SameContent (c d : Write ι H) : Prop :=
  unixNano c.expiresAt = unixNano d.expiresAt ∧
    ∃ u v, c.expr = .eConst u ∧ d.expr = .eConst v ∧ u.serialize = v.serialize

/-- Concurrent calls on one path: those that have not minted their atom yet, in the order in which
they will, and the atoms that are minted and not yet inserted. -/
structure Racing (ι H : Type) where
  cache : ShardedFrontierCache ι H
  waiting : List (Write ι H)
  minted : List (CausalAtom ι H)

/-- One of the two atomic steps of some call on `p`. -/
inductive Racing.Step (p : Str) : Racing ι H → Racing ι H → Prop where
  | mint (f : ShardedFrontierCache ι H) (c : Write ι H) (cs : List (Write ι H))
      (minted : List (CausalAtom ι H)) :
      Step p ⟨f, c :: cs, minted⟩ ⟨{ f with clock := f.clock + 1 }, cs,
        f.mint c.mintedAt c.expr p c.expiresAt :: minted⟩
  | insert (f : ShardedFrontierCache ι H) (cs : List (Write ι H))
      (before after : List (CausalAtom ι H)) (atom : CausalAtom ι H) :
      Step p ⟨f, cs, before ++ atom :: after⟩ ⟨(f.insertAtom atom).2.1, cs, before ++ after⟩

/-- The calls have all completed, and left the cache `f'`. -/
def Completes (f : ShardedFrontierCache ι H) (p : Str) (cs : List (Write ι H))
    (f' : ShardedFrontierCache ι H) : Prop :=
  Relation.ReflTransGen (Racing.Step p) ⟨f, cs, []⟩ ⟨f', [], []⟩

/-- Whatever the interleaving, the resident atom ends up with the serialized value and the deadline
of the call that minted last. -/
def NewestWins (f : ShardedFrontierCache ι H) (p : Str) (cs : List (Write ι H)) (last : Write ι H) :
    Prop :=
  ∀ f', Completes f p (cs ++ [last]) f' →
    ∃ r, f'.resident p = some r ∧ r.expr.serialize = last.expr.serialize ∧
      r.expiresAt = last.expiresAt

/-- From the first call on that has the content of the last one, every call has; and those calls have
its very deadline. -/
def Settled (cs : List (Write ι H)) (last : Write ι H) : Prop :=
  ∀ before c after, cs = before ++ c :: after → c.SameContent last →
    c.expiresAt = last.expiresAt ∧ ∀ d ∈ after, d.SameContent last

/-- The call that would mint the atom again. -/
def Write.ofAtom (a : CausalAtom ι H) : Write ι H := ⟨a.expr, a.expiresAt, a.physicalTime⟩

/-- **The condition**, with the resident atom `r`: if it has the content of the last call, it has the very deadline of
that call and every call has its content; if not, or if there is none, the calls are settled among themselves. -/
def SettledOver (r : Option (CausalAtom ι H)) (cs : List (Write ι H)) (last : Write ι H) : Prop :=
  (∀ a, r = some a → (Write.ofAtom a).SameContent last →
    a.expiresAt = last.expiresAt ∧ ∀ d ∈ cs, d.SameContent last) ∧
  ((∀ a, r = some a → ¬ (Write.ofAtom a).SameContent last) → Settled cs last)

/-! ### The atoms of the calls -/

def mintAll (p : Str) : ShardedFrontierCache ι H → List (Write ι H) → List (CausalAtom ι H)
  | _, [] => []
  | f, c :: cs => f.mint c.mintedAt c.expr p c.expiresAt :: mintAll p { f with clock := f.clock + 1 } cs

omit [DecidableEq H] in
theorem mintAll_congr (p : Str) (cs : List (Write ι H)) : ∀ {f f' : ShardedFrontierCache ι H},
    f.clock = f'.clock → mintAll p f cs = mintAll p f' cs := by
  induction cs with
  | nil => exact fun _ => rfl
  | cons c cs ih =>
    intro f f' h
    have htail := ih (show { f with clock := f.clock + 1 }.clock =
      { f' with clock := f'.clock + 1 }.clock from congrArg (· + 1) h)
    have hmint : f.mint c.mintedAt c.expr p c.expiresAt = f'.mint c.mintedAt c.expr p c.expiresAt := by
      simp only [ShardedFrontierCache.mint, h]
    rw [mintAll, mintAll, htail, hmint]

omit [DecidableEq H] in
theorem mintAll_append (p : Str) (cs ds : List (Write ι H)) : ∀ f : ShardedFrontierCache ι H,
    mintAll p f (cs ++ ds) = mintAll p f cs ++ mintAll p { f with clock := f.clock + cs.length } ds := by
  induction cs with
  | nil => exact fun f => rfl
  | cons c cs ih =>
    intro f
    have hclock : f.clock + 1 + cs.length = f.clock + (c :: cs).length := by
      rw [length_cons]
      omega
    simp only [cons_append, mintAll, ih, hclock]

variable {p : Str} {f : ShardedFrontierCache ι H} {cs : List (Write ι H)} {last : Write ι H}

section

omit [DecidableEq H]

theorem path_of_mem_mintAll (cs : List (Write ι H)) : ∀ {f : ShardedFrontierCache ι H}
    {a : CausalAtom ι H}, a ∈ mintAll p f cs → a.path = p := by
  induction cs with
  | nil => exact fun h => by cases h
  | cons c cs ih =>
    intro f a h
    rcases mem_cons.1 h with rfl | h
    · rfl
    · exact ih h

theorem clock_of_mem_mintAll (cs : List (Write ι H)) : ∀ {f : ShardedFrontierCache ι H}
    {a : CausalAtom ι H}, a ∈ mintAll p f cs → f.clock < a.logicalClock := by
  induction cs with
  | nil => exact fun h => by cases h
  | cons c cs ih =>
    intro f a h
    rcases mem_cons.1 h with rfl | h
    · exact Nat.lt_succ_self _
    · exact (Nat.lt_succ_self _).trans (ih h)

theorem mintAll_pairwise (p : Str) (cs : List (Write ι H)) : ∀ f : ShardedFrontierCache ι H,
    (mintAll p f cs).Pairwise (·.logicalClock < ·.logicalClock) := by
  induction cs with
  | nil => exact fun f => List.Pairwise.nil
  | cons c cs ih => exact fun f => pairwise_cons.2 ⟨fun a ha => clock_of_mem_mintAll cs ha, ih _⟩

end

/-! ### Interleavings and orders of insertion -/

/-- `atom` is dropped as a duplicate of `old`. -/
def duplicates (old atom : CausalAtom ι H) : Bool :=
  old.hash ≠ atom.hash ∧ sameAtomContent old atom

omit [Hashing H] in
theorem duplicates_iff {old atom : CausalAtom ι H} : duplicates old atom = true ↔
    old.hash ≠ atom.hash ∧ sameAtomContent old atom = true := by
  simp [duplicates]

/-- The resident atom after an atom was offered to the register of the path. -/
abbrev offerAtom : Option (CausalAtom ι H) → CausalAtom ι H → Option (CausalAtom ι H) :=
  offer (·.logicalClock) duplicates

omit [Hashing H] in
theorem keeps_ne_none_iff (old atom : CausalAtom ι H) : ShardedFrontierCache.keeps old atom ≠ none ↔
      atom.logicalClock < old.logicalClock ∨ duplicates old atom = true := by
  unfold ShardedFrontierCache.keeps duplicates
  by_cases hclock : old.logicalClock > atom.logicalClock
  · simp [hclock]
  · by_cases hdup : old.hash ≠ atom.hash ∧ sameAtomContent old atom = true
    · rw [if_neg hclock, if_pos hdup]
      simp [hdup]
    · rw [if_neg hclock, if_neg hdup]
      simpa [not_lt.1 hclock] using hdup

theorem resident_insertAtom (f : ShardedFrontierCache ι H) {atom : CausalAtom ι H}
    (hp : atom.path = p) : (f.insertAtom atom).2.1.resident p = offerAtom (f.resident p) atom := by
  subst hp
  rcases f.insertAtom_spec atom with ⟨-, hput, hnone⟩ | ⟨-, hsame, old, hold, hkeep⟩
  · rw [hput.resident, Function.update_self]
    cases hr : f.resident atom.path with
    | none => rfl
    | some old =>
      have hnot : ¬ (atom.logicalClock < old.logicalClock ∨ duplicates old atom = true) :=
        fun h => (keeps_ne_none_iff old atom).2 h (hnone old hr)
      exact (if_neg hnot).symm
  · rw [hsame.resident, hold]
    exact (if_pos ((keeps_ne_none_iff old atom).1 hkeep)).symm

theorem exists_order {s s' : Racing ι H} (h : Relation.ReflTransGen (Racing.Step p) s s')
    (hend : s'.waiting = [] ∧ s'.minted = []) (hpath : ∀ a ∈ s.minted, a.path = p) :
    ∃ order : List (CausalAtom ι H), order.Perm (s.minted ++ mintAll p s.cache s.waiting) ∧
      s'.cache.resident p = order.foldl offerAtom (s.cache.resident p) := by
  induction h using Relation.ReflTransGen.head_induction_on with
  | refl => exact ⟨[], by simp [hend, mintAll], rfl⟩
  | head hstep _ ih =>
    cases hstep with
    | mint f c cs minted =>
      obtain ⟨order, hperm, hres⟩ := ih fun a ha => by
        rcases mem_cons.1 ha with rfl | ha
        · rfl
        · exact hpath a ha
      exact ⟨order, hperm.trans perm_middle.symm, hres⟩
    | insert f cs before after atom =>
      obtain ⟨order, hperm, hres⟩ := ih fun a ha => by
        refine hpath a ?_
        simp only [mem_append, mem_cons] at ha ⊢
        exact ha.imp_right Or.inr
      refine ⟨atom :: order, ?_, ?_⟩
      · have hclock := mintAll_congr p cs (f.clock_insertAtom atom)
        rw [hclock] at hperm
        refine (hperm.cons atom).trans ?_
        rw [append_assoc, append_assoc]
        exact perm_middle.symm
      · rw [hres, resident_insertAtom f (hpath atom (by simp)), foldl_cons]

theorem mints_first (p : Str) (cs : List (Write ι H)) : ∀ (f : ShardedFrontierCache ι H)
    (minted : List (CausalAtom ι H)), ∃ f' minted',
      Relation.ReflTransGen (Racing.Step p) ⟨f, cs, minted⟩ ⟨f', [], minted'⟩ ∧
        f'.resident p = f.resident p ∧ minted'.Perm (minted ++ mintAll p f cs) := by
  induction cs with
  | nil => exact fun f minted => ⟨f, minted, .refl, rfl, by simp [mintAll]⟩
  | cons c cs ih =>
    intro f minted
    obtain ⟨f', minted', hrun, hres, hperm⟩ := ih { f with clock := f.clock + 1 }
      (f.mint c.mintedAt c.expr p c.expiresAt :: minted)
    exact ⟨f', minted', .head (.mint f c cs minted) hrun, hres,
      hperm.trans perm_middle.symm⟩

theorem inserts_in_order (order : List (CausalAtom ι H)) :
    ∀ (f : ShardedFrontierCache ι H) (minted : List (CausalAtom ι H)), order.Perm minted →
      (∀ a ∈ minted, a.path = p) → ∃ f',
        Relation.ReflTransGen (Racing.Step p) ⟨f, [], minted⟩ ⟨f', [], []⟩ ∧
          f'.resident p = order.foldl offerAtom (f.resident p) := by
  induction order with
  | nil =>
    intro f minted hperm _
    obtain rfl := hperm.nil_eq
    exact ⟨f, .refl, rfl⟩
  | cons a order ih =>
    intro f minted hperm hpath
    obtain ⟨before, after, rfl⟩ := append_of_mem (hperm.subset (.head _))
    have hrest : order.Perm (before ++ after) := (hperm.trans perm_middle).cons_inv
    obtain ⟨f', hrun, hres⟩ := ih (f.insertAtom a).2.1 (before ++ after) hrest fun b hb =>
      hpath b (perm_middle.symm.subset (.tail _ hb))
    refine ⟨f', .head (.insert f [] before after a) hrun, ?_⟩
    rw [hres, resident_insertAtom f (hpath a (by simp)), foldl_cons]

/-- **The interleavings are the orders of insertion.** -/
theorem exists_completes_iff (P : Option (CausalAtom ι H) → Prop) :
    (∀ f', Completes f p cs f' → P (f'.resident p)) ↔
      ∀ order : List (CausalAtom ι H), order.Perm (mintAll p f cs) →
        P (order.foldl offerAtom (f.resident p)) := by
  constructor
  · intro h order hperm
    obtain ⟨f₁, minted, hmints, hres₁, hminted⟩ := mints_first p cs f []
    rw [nil_append] at hminted
    obtain ⟨f₂, hinserts, hres₂⟩ := inserts_in_order order f₁ minted (hperm.trans hminted.symm)
      fun a ha => path_of_mem_mintAll cs (hminted.subset ha)
    have hend := h f₂ (hmints.trans hinserts)
    rwa [hres₂, hres₁] at hend
  · intro h f' hrun
    obtain ⟨order, hperm, hres⟩ := exists_order hrun ⟨rfl, rfl⟩ (by simp)
    rw [hres]
    exact h order hperm

/-! ### Which interleavings end with the newest content -/

omit [DecidableEq H] in
theorem serialize_eq_const {e : Expr ι H} {v : Value ι}
    (h : e.serialize = (.eConst v : Expr ι H).serialize) :
    ∃ u, e = .eConst u ∧ u.serialize = v.serialize := by
  cases e <;> simp [Expr.serialize] at h
  exact ⟨_, rfl, h⟩

omit [DecidableEq H] [Hashing H] in
theorem sameAtomContent_comm {a b : CausalAtom ι H} (h : sameAtomContent a b = true) :
    sameAtomContent b a = true := by
  obtain ⟨hnano, u, v, hu, hv, hser⟩ := (sameAtomContent_iff a b).1 h
  exact (sameAtomContent_iff b a).2 ⟨hnano.symm, v, u, hv, hu, hser.symm⟩

omit [DecidableEq H] [Hashing H] in
theorem sameAtomContent_trans {a b c : CausalAtom ι H} (hab : sameAtomContent a b = true)
    (hbc : sameAtomContent b c = true) : sameAtomContent a c = true := by
  obtain ⟨hnano, u, v, hu, hv, hser⟩ := (sameAtomContent_iff a b).1 hab
  obtain ⟨hnano', v', w, hv', hw, hser'⟩ := (sameAtomContent_iff b c).1 hbc
  obtain rfl := Expr.eConst.inj (hv.symm.trans hv')
  exact (sameAtomContent_iff a c).2 ⟨hnano.trans hnano', u, w, hu, hw, hser.trans hser'⟩

/-- The atom is one that the call makes. -/
structure Write.Mints (c : Write ι H) (a : CausalAtom ι H) : Prop where
  expr_eq : a.expr = c.expr
  expiresAt_eq : a.expiresAt = c.expiresAt

omit [DecidableEq H] [Hashing H] in
theorem Write.Mints.sameAtomContent_iff {c d : Write ι H} {a b : CausalAtom ι H} (hc : c.Mints a)
    (hd : d.Mints b) : sameAtomContent a b = true ↔ c.SameContent d := by
  rw [Storage.sameAtomContent_iff, hc.expr_eq, hc.expiresAt_eq, hd.expr_eq, hd.expiresAt_eq]
  rfl

section

omit [DecidableEq H]

theorem mintAll_middle (p : Str) (f : ShardedFrontierCache ι H) (before : List (Write ι H))
    (c : Write ι H) (after : List (Write ι H)) : ∃ a g, c.Mints a ∧
      mintAll p f (before ++ c :: after) = mintAll p f before ++ a :: mintAll p g after :=
  ⟨_, _, ⟨rfl, rfl⟩, mintAll_append p before (c :: after) f⟩

theorem mintAll_split (cs : List (Write ι H)) : ∀ {f : ShardedFrontierCache ι H}
    {a : CausalAtom ι H}, a ∈ mintAll p f cs → ∃ before c after g, cs = before ++ c :: after ∧
      c.Mints a ∧ mintAll p f cs = mintAll p f before ++ a :: mintAll p g after := by
  induction cs with
  | nil => exact fun h => by cases h
  | cons c cs ih =>
    intro f a h
    rcases mem_cons.1 h with rfl | h
    · exact ⟨[], c, cs, _, rfl, ⟨rfl, rfl⟩, rfl⟩
    · obtain ⟨before, d, after, g, rfl, hmints, hsplit⟩ := ih h
      exact ⟨c :: before, d, after, g, rfl, hmints, by rw [mintAll, hsplit]; rfl⟩

theorem sameAtomContent_of_mem_mintAll {m a : CausalAtom ι H} (hm : last.Mints m)
    (h : ∀ d ∈ cs, d.SameContent last) (ha : a ∈ mintAll p f cs) : sameAtomContent a m = true := by
  obtain ⟨_, d, _, _, rfl, hmints, -⟩ := mintAll_split cs ha
  exact (hmints.sameAtomContent_iff hm).2 (h d (by simp))

end

theorem exists_last_not {α : Type} {P : α → Prop} : ∀ {l : List α}, (¬ ∀ x ∈ l, P x) →
    ∃ l₁ x l₂, l = l₁ ++ x :: l₂ ∧ ¬ P x ∧ ∀ y ∈ l₂, P y
  | [], h => absurd (by simp) h
  | x :: l, h => by
    by_cases hl : ∀ y ∈ l, P y
    · exact ⟨[], x, l, rfl, fun hx => h (forall_mem_cons.2 ⟨hx, hl⟩), hl⟩
    · obtain ⟨l₁, y, l₂, rfl, hy, hafter⟩ := exists_last_not hl
      exact ⟨x :: l₁, y, l₂, rfl, hy, hafter⟩

/-- The resident atom has the serialized value and the deadline of the call. -/
def HasContent (last : Write ι H) (r : Option (CausalAtom ι H)) : Prop :=
  ∃ a, r = some a ∧ a.expr.serialize = last.expr.serialize ∧ a.expiresAt = last.expiresAt

omit [Hashing H] in
/-- The resident atom, if any, comes first. -/
theorem foldl_offerAtom_resident (r : Option (CausalAtom ι H)) (order : List (CausalAtom ι H)) :
    order.foldl offerAtom r = (r.toList ++ order).foldl offerAtom none := by
  cases r <;> rfl

omit [DecidableEq H] in
theorem Write.SameContent.serialize_eq {c d : Write ι H} (h : c.SameContent d) :
    c.expr.serialize = d.expr.serialize := by
  obtain ⟨-, u, v, hu, hv, hser⟩ := h
  rw [hu, hv]
  simp [Expr.serialize, hser]

variable (hclock : ∀ a, f.resident p = some a → a.logicalClock ≤ f.clock)

include hclock

omit [DecidableEq H] in
/-- In settled calls, an atom with the content of the last one has its deadline, and so have the content all that
are newer. -/
theorem Settled.of_sameAtomContent (h : Settled ((f.resident p).toList.map Write.ofAtom ++ cs) last)
    {a m : CausalAtom ι H} (hm : last.Mints m) (ha : a ∈ (f.resident p).toList ++ mintAll p f cs)
    (hsame : sameAtomContent a m = true) :
    a.expiresAt = last.expiresAt ∧ ∀ b ∈ (f.resident p).toList ++ mintAll p f cs,
      a.logicalClock ≤ b.logicalClock → sameAtomContent b m = true := by
  rcases mem_append.1 ha with ha | ha
  · have hres := Option.mem_toList.1 ha
    have hcontent := (Write.Mints.sameAtomContent_iff (c := .ofAtom a) ⟨rfl, rfl⟩ hm).1 hsame
    obtain ⟨hdeadline, hlater⟩ := h [] (.ofAtom a) cs (by rw [hres]; rfl) hcontent
    refine ⟨hdeadline, fun b hb _ => ?_⟩
    rcases mem_append.1 hb with hb | hb
    · obtain rfl := Option.some.inj (hres.symm.trans (Option.mem_toList.1 hb))
      exact hsame
    · exact sameAtomContent_of_mem_mintAll hm hlater hb
  · obtain ⟨before, c, after, g, rfl, hc, hsplit⟩ := mintAll_split cs ha
    obtain ⟨hdeadline, hlater⟩ := h _ c after (append_assoc _ before (c :: after)).symm
      ((hc.sameAtomContent_iff hm).1 hsame)
    refine ⟨hc.expiresAt_eq.trans hdeadline, fun b hb hle => ?_⟩
    rcases mem_append.1 hb with hb | hb
    · have hnewer := (hclock b (Option.mem_toList.1 hb)).trans_lt (clock_of_mem_mintAll _ ha)
      exact absurd hnewer (not_lt.2 hle)
    · have hsorted := mintAll_pairwise p (before ++ c :: after) f
      rw [hsplit] at hb hsorted
      rcases mem_append.1 hb with hb | hb
      · exact absurd ((pairwise_append.1 hsorted).2.2 b hb a (.head _)) (not_lt.2 hle)
      · rcases mem_cons.1 hb with rfl | hb
        · exact hsame
        · exact sameAtomContent_of_mem_mintAll hm hlater hb

theorem newestWins_of_settled (h : Settled ((f.resident p).toList.map Write.ofAtom ++ cs) last) :
    NewestWins f p cs last := by
  refine (exists_completes_iff (HasContent last)).2 fun order hperm => ?_
  obtain ⟨m, g, hm, hatoms⟩ := mintAll_middle p f cs last []
  have hpair := mintAll_pairwise p (cs ++ [last]) f
  have hnewer : ∀ a ∈ (f.resident p).toList, ∀ b ∈ mintAll p f (cs ++ [last]),
      a.logicalClock < b.logicalClock := fun a ha b hb =>
    (hclock a (Option.mem_toList.1 ha)).trans_lt (clock_of_mem_mintAll _ hb)
  rw [hatoms] at hperm hpair hnewer
  -- an atom other than the newest is the resident one or that of an earlier call
  have hmem : ∀ a ∈ (f.resident p).toList ++ order, a ≠ m → a ∈ (f.resident p).toList ++ mintAll p f cs := by
    intro a ha hne
    rcases mem_append.1 ha with ha | ha
    · exact mem_append_left _ ha
    · have hmem := hperm.subset ha
      exact mem_append_right _ (by simpa [mintAll, hne] using hmem)
  obtain ⟨y, hy, hfold, hlike⟩ : ∃ y ∈ (f.resident p).toList ++ order,
      ((f.resident p).toList ++ order).foldl offerAtom none = some y ∧
        (y = m ∨ sameAtomContent y m = true) := by
    refine foldl_offer_like (mem_append_right _ (hperm.symm.subset (by simp))) (fun a ha hne => ?_)
      (Or.inl rfl) (fun x _ hdup => Or.inr (duplicates_iff.1 hdup).2) (fun x hx hlike hne a ha hle => ?_)
    · rcases mem_append.1 (hmem a ha hne) with ha | ha
      · exact hnewer a ha m (by simp)
      · exact (pairwise_append.1 hpair).2.2 a ha m (.head _)
    · by_cases ham : a = m
      · exact Or.inl ham
      · have hsame := hlike.resolve_left hne
        exact Or.inr ((h.of_sameAtomContent hclock hm (hmem x hx hne) hsame).2 a (hmem a ha ham) hle)
  refine ⟨y, (foldl_offerAtom_resident _ _).trans hfold, ?_⟩
  by_cases hym : y = m
  · subst hym
    exact ⟨by rw [hm.expr_eq], hm.expiresAt_eq⟩
  · have hsame := hlike.resolve_left hym
    have hcontent := (Write.Mints.sameAtomContent_iff (c := .ofAtom y) ⟨rfl, rfl⟩ hm).1 hsame
    exact ⟨hcontent.serialize_eq, (h.of_sameAtomContent hclock hm (hmem y hy hym) hsame).1⟩

omit hclock

section Orders

variable {A B : List (CausalAtom ι H)} {a m : CausalAtom ι H}

omit [Hashing H] in
theorem duplicates_of_later {L : List (CausalAtom ι H)}
    (hd : ((A ++ a :: L).map (·.hash)).Nodup) {x : CausalAtom ι H} (hx : x ∈ L)
    (hsame : sameAtomContent a x = true) : duplicates a x = true := by
  refine duplicates_iff.2 ⟨fun heq => ?_, hsame⟩
  rw [map_append, map_cons] at hd
  have hmem : x.hash ∈ L.map (·.hash) := mem_map_of_mem hx
  rw [← heq] at hmem
  exact (nodup_cons.1 (nodup_append.1 hd).2.1).1 hmem

omit [DecidableEq H] [Hashing H] in
theorem same_of_later (ham : sameAtomContent a m = true)
    (hB : ∀ x ∈ B, sameAtomContent x m = true) {x : CausalAtom ι H} (hx : x ∈ B ++ [m]) :
    sameAtomContent a x = true := by
  rcases mem_append.1 hx with hx | hx
  · exact sameAtomContent_trans ham (sameAtomContent_comm (hB x hx))
  · obtain rfl := mem_singleton.1 hx
    exact ham

omit [Hashing H] in
theorem exists_order_kept (hd : ((A ++ a :: (B ++ [m])).map (·.hash)).Nodup)
    (hsorted : (A ++ a :: (B ++ [m])).Pairwise (·.logicalClock < ·.logicalClock))
    (ham : sameAtomContent a m = true) (hB : ∀ x ∈ B, sameAtomContent x m = true) :
    ∃ order : List (CausalAtom ι H), (a :: order).Perm (A ++ a :: (B ++ [m])) ∧
      order.foldl offerAtom (some a) = some a := by
  refine ⟨(B ++ [m]) ++ A, ?_, ?_⟩
  · exact (perm_append_comm.cons a).trans perm_middle.symm
  · refine foldl_offer_stays fun x hx => ?_
    rcases mem_append.1 hx with hx | hx
    · exact Or.inr (duplicates_of_later hd hx (same_of_later ham hB hx))
    · exact Or.inl ((pairwise_append.1 hsorted).2.2 x hx a (.head _))

omit [Hashing H] in
theorem exists_order_overtaken {B₁ B₂ : List (CausalAtom ι H)} {b : CausalAtom ι H}
    (hd : ((A ++ a :: ((B₁ ++ b :: B₂) ++ [m])).map (·.hash)).Nodup)
    (hsorted : (A ++ a :: ((B₁ ++ b :: B₂) ++ [m])).Pairwise (·.logicalClock < ·.logicalClock))
    (ham : sameAtomContent a m = true) (hbm : ¬ sameAtomContent b m = true)
    (hB₂ : ∀ x ∈ B₂, sameAtomContent x m = true) :
    ∃ order : List (CausalAtom ι H), (a :: order).Perm (A ++ a :: ((B₁ ++ b :: B₂) ++ [m])) ∧
      order.foldl offerAtom (some a) = some b := by
  classical
  obtain ⟨-, hafter, hbefore⟩ := pairwise_append.1 hsorted
  obtain ⟨hlater, hafter⟩ := pairwise_cons.1 hafter
  have hab : a.logicalClock < b.logicalClock := hlater b (by simp)
  refine ⟨(B₂ ++ [m]) ++ b :: (A ++ B₁), ?_, ?_⟩
  · refine perm_iff_count.2 fun x => ?_
    simp only [count_append, count_cons, count_nil]
    omega
  · refine foldl_offer_overtaken hab.le ?_ (fun x hx => ?_) (fun x hx => ?_)
    · rw [Bool.eq_false_iff]
      intro hdup
      exact hbm (sameAtomContent_trans (sameAtomContent_comm (duplicates_iff.1 hdup).2) ham)
    · refine duplicates_of_later hd ?_ (same_of_later ham hB₂ hx)
      simp only [mem_append, mem_cons] at hx ⊢
      exact hx.imp_left fun hx => Or.inr (Or.inr hx)
    · rcases mem_append.1 hx with hx | hx
      · exact (hbefore x hx a (.head _)).trans hab
      · have hB₁ := (pairwise_append.1 (pairwise_append.1 hafter).1).2.2
        exact hB₁ x hx b (.head _)

/-- What follows for the calls `after` the atom `a`, if the newest content wins in every order that begins with
`a`. -/
theorem settled_of_orders {after : List (Write ι H)} {g : ShardedFrontierCache ι H} (hm : last.Mints m)
    (hd : ((A ++ a :: (mintAll p g after ++ [m])).map (·.hash)).Nodup)
    (hsorted : (A ++ a :: (mintAll p g after ++ [m])).Pairwise (·.logicalClock < ·.logicalClock))
    (ham : sameAtomContent a m = true) (h : ∀ order : List (CausalAtom ι H),
      (a :: order).Perm (A ++ a :: (mintAll p g after ++ [m])) →
        HasContent last (order.foldl offerAtom (some a))) :
    a.expiresAt = last.expiresAt ∧ ∀ d ∈ after, d.SameContent last := by
  have hafter : ∀ d ∈ after, d.SameContent last := by
    by_contra hnot
    obtain ⟨after₁, d, after₂, rfl, hdlast, hrest⟩ := exists_last_not hnot
    obtain ⟨b, g₂, hb, hB⟩ := mintAll_middle p g after₁ d after₂
    rw [hB] at h hsorted hd
    have hbm := fun hsame => hdlast ((hb.sameAtomContent_iff hm).1 hsame)
    obtain ⟨order, hperm, hfold⟩ := exists_order_overtaken hd hsorted ham hbm fun x hx =>
      sameAtomContent_of_mem_mintAll hm hrest hx
    obtain ⟨r, hr, hser, hexp⟩ := h order hperm
    obtain rfl := Option.some.inj (hfold.symm.trans hr)
    obtain ⟨-, _, v, -, hv, -⟩ := (sameAtomContent_iff a m).1 ham
    rw [← hm.expr_eq, hv] at hser
    obtain ⟨u, hu, huv⟩ := serialize_eq_const hser
    exact hdlast ⟨by rw [← hb.expiresAt_eq, hexp], u, v, hb.expr_eq ▸ hu, hm.expr_eq ▸ hv, huv⟩
  refine ⟨?_, hafter⟩
  obtain ⟨order, hperm, hfold⟩ := exists_order_kept hd hsorted ham fun x hx =>
    sameAtomContent_of_mem_mintAll hm hafter hx
  obtain ⟨r, hr, -, hexp⟩ := h order hperm
  obtain rfl := Option.some.inj (hfold.symm.trans hr)
  exact hexp

end Orders

include hclock

omit [DecidableEq H] in
theorem pairwise_atoms (cs : List (Write ι H)) :
    ((f.resident p).toList ++ mintAll p f cs).Pairwise (·.logicalClock < ·.logicalClock) := by
  refine pairwise_append.2 ⟨?_, mintAll_pairwise p cs f, fun a ha b hb =>
    (hclock a (Option.mem_toList.1 ha)).trans_lt (clock_of_mem_mintAll _ hb)⟩
  cases f.resident p with
  | none => exact .nil
  | some r => exact pairwise_singleton _ _

theorem settledOver_of_newestWins
    (hd : (((f.resident p).toList ++ mintAll p f (cs ++ [last])).map (·.hash)).Nodup)
    (h : NewestWins f p cs last) : SettledOver (f.resident p) cs last := by
  have hcontent := (exists_completes_iff (HasContent last)).1 h
  have hsorted := pairwise_atoms hclock (cs ++ [last])
  constructor
  · -- the resident atom has the newest content
    intro r hr hsame
    obtain ⟨m, g, hm, hatoms⟩ := mintAll_middle p f cs last []
    rw [hr, hatoms] at hd hsorted hcontent
    have hrm := (Write.Mints.sameAtomContent_iff (c := .ofAtom r) ⟨rfl, rfl⟩ hm).2 hsame
    refine settled_of_orders (A := []) hm hd hsorted hrm fun order hperm => ?_
    exact hcontent order (hperm.cons_inv)
  · rintro hother before c after rfl hc
    obtain ⟨a, g, ha, hatoms⟩ := mintAll_middle p f before c (after ++ [last])
    obtain ⟨m, g', hm, hatoms'⟩ := mintAll_middle p g after last []
    have ham := (ha.sameAtomContent_iff hm).2 hc
    rw [append_assoc, cons_append, hatoms, hatoms'] at hcontent hsorted hd
    -- offered first, the atom takes the place of the resident one
    have hfirst : offerAtom (f.resident p) a = some a := by
      cases hr : f.resident p with
      | none => rfl
      | some r =>
        have hnewer := (pairwise_append.1 hsorted).2.2 r (by rw [hr]; exact .head _) a (by simp)
        refine if_neg (not_or.2 ⟨not_lt.2 hnewer.le, fun hdup => ?_⟩)
        have hra := (duplicates_iff.1 hdup).2
        exact hother r hr ((Write.Mints.sameAtomContent_iff (c := .ofAtom r) ⟨rfl, rfl⟩ hm).1
          (sameAtomContent_trans hra ham))
    rw [map_append] at hd
    obtain ⟨hdeadline, hafter⟩ := settled_of_orders hm (nodup_append.1 hd).2.1
      (pairwise_append.1 hsorted).2.1 ham fun order hperm => by
        have hend := hcontent (a :: order) hperm
        rwa [foldl_cons, hfirst] at hend
    exact ⟨ha.expiresAt_eq ▸ hdeadline, hafter⟩

theorem newestWins_of_settledOver
    (hd : (((f.resident p).toList ++ mintAll p f (cs ++ [last])).map (·.hash)).Nodup)
    (h : SettledOver (f.resident p) cs last) : NewestWins f p cs last := by
  by_cases hother : ∀ a, f.resident p = some a → ¬ (Write.ofAtom a).SameContent last
  · refine newestWins_of_settled hclock fun before c after heq hc => ?_
    have hsettled := h.2 hother
    cases hr : f.resident p with
    | none =>
      rw [hr] at heq
      exact hsettled before c after heq hc
    | some r =>
      rw [hr] at heq
      cases before with
      | nil =>
        cases heq
        exact absurd hc (hother r hr)
      | cons d before => exact hsettled before c after (cons.inj heq).2 hc
  · -- the resident atom stays: every call is dropped as a duplicate of it
    push Not at hother
    obtain ⟨r, hr, hsame⟩ := hother
    obtain ⟨hdeadline, hall⟩ := h.1 r hr hsame
    refine (exists_completes_iff (HasContent last)).2 fun order hperm => ?_
    rw [hr] at hd ⊢
    have hlast : ∀ d ∈ cs ++ [last], d.SameContent last := by
      obtain ⟨-, _, v, -, hv, -⟩ := hsame
      exact forall_mem_append.2 ⟨hall, forall_mem_singleton.2 ⟨rfl, v, v, hv, hv, rfl⟩⟩
    obtain ⟨m, g, hm, -⟩ := mintAll_middle p f cs last []
    have hrm := (Write.Mints.sameAtomContent_iff (c := .ofAtom r) ⟨rfl, rfl⟩ hm).2 hsame
    have hstays : order.foldl offerAtom (some r) = some r := by
      refine foldl_offer_stays fun x hx => .inr ?_
      have hx := hperm.subset hx
      have hxm := sameAtomContent_of_mem_mintAll hm hlast hx
      exact duplicates_of_later (A := []) hd hx (sameAtomContent_trans hrm (sameAtomContent_comm hxm))
    exact ⟨r, hstays, hsame.serialize_eq, hdeadline⟩

omit hclock

/-- **Clock order against lock order.** In every state of a cache, every interleaving of a sequence of appends to one
path ends with the value and the deadline of the one with the highest clock, if from the first atom on that has its
content, the resident one before all others, every one has. If no two of the atoms have the same hash, the newest
append wins if and only if the calls are settled over the resident atom. -/
theorem newestWins_iff {w : World ι H} (hw : w.Inv) (p : Str) (cs : List (Write ι H)) (last : Write ι H) :
    (Settled ((w.cache.resident p).toList.map Write.ofAtom ++ cs) last → NewestWins w.cache p cs last) ∧
      ((((w.cache.resident p).toList ++ mintAll p w.cache (cs ++ [last])).map (·.hash)).Nodup →
        (NewestWins w.cache p cs last ↔ SettledOver (w.cache.resident p) cs last)) := by
  have hclock : ∀ a, w.cache.resident p = some a → a.logicalClock ≤ w.cache.clock := fun a ha =>
    hw.clock a (hw.exact.logged _ p a ha)
  exact ⟨newestWins_of_settled hclock, fun hd =>
    ⟨settledOver_of_newestWins hclock hd, newestWins_of_settledOver hclock hd⟩⟩

end

section Instances

local instance raceHashing : Hashing Str := ⟨id, id, fun _ => 0⟩

def writeText (s : String) : Write Unit Str := ⟨.eConst (.vString (str s)), zeroTime, 0⟩

def emptyWorld : World Unit Str := .init 0 0

theorem not_sameContent_writeText : ¬ (writeText "b").SameContent (writeText "a") := by
  rintro ⟨-, u, v, hu, hv, hser⟩
  obtain rfl := Expr.eConst.inj hu
  obtain rfl := Expr.eConst.inj hv
  exact absurd hser (by decide)

/-- Three appends to a new cache mint their atoms in the order `a`, `b`, `a`. The first is inserted;
the third is dropped as its duplicate; and then the second takes its place. -/
theorem newest_duplicate_loses : emptyWorld.Inv ∧
    (((emptyWorld.cache.resident (str "k")).toList ++ mintAll (str "k") emptyWorld.cache
      ([writeText "a", writeText "b"] ++ [writeText "a"])).map (·.hash)).Nodup ∧
    ¬ NewestWins emptyWorld.cache (str "k") [writeText "a", writeText "b"] (writeText "a") := by
  have hd : (((emptyWorld.cache.resident (str "k")).toList ++ mintAll (str "k") emptyWorld.cache
      ([writeText "a", writeText "b"] ++ [writeText "a"])).map (·.hash)).Nodup := by decide +kernel
  refine ⟨World.inv_init 0 0, hd, fun h => ?_⟩
  have hnone : ∀ a, emptyWorld.cache.resident (str "k") ≠ some a := fun a ha => by cases ha
  have hover := settledOver_of_newestWins (fun a ha => absurd ha (hnone a)) hd h
  have hsettled := hover.2 (fun a ha => absurd ha (hnone a)) [] (writeText "a") [writeText "b"] rfl
    ⟨rfl, _, _, rfl, rfl, rfl⟩
  exact not_sameContent_writeText (hsettled.2 _ (.head _))

theorem newestWins_iff_repeated_last : emptyWorld.Inv ∧
    NewestWins emptyWorld.cache (str "k") [writeText "b", writeText "a"] (writeText "a") := by
  refine ⟨World.inv_init 0 0, (newestWins_iff (World.inv_init 0 0) _ _ _).1 fun before c after heq hc => ?_⟩
  change [writeText "b", writeText "a"] = _ at heq
  match before, heq with
  | [], heq =>
    obtain ⟨rfl, -⟩ := cons.inj heq
    exact absurd hc not_sameContent_writeText
  | [_], heq =>
    obtain ⟨rfl, rfl⟩ := cons.inj (cons.inj heq).2
    exact ⟨rfl, forall_mem_nil _⟩
  | _ :: _ :: before, heq => exact absurd (congrArg length heq) (by simp)

end Instances

end Wavicle.Storage
