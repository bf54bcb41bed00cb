import Wavicle.Engine.Queries
import Wavicle.Engine.Denotation

/-! # What `reduceTree` returns

`Unfolds` says which value an expression spells out to. The table of `reduceTree` may answer for another
constant with the same bytes. -/

namespace Wavicle.Engine

open Lib Wavicle.Core Storage List

/-- The type `[32]byte` of digests: they have one length and are known by their bytes. -/
class Digests (H : Type) [Hashing H] : Prop where
  length_bytes : ∀ h : H, (Hashing.bytes h).length = 32
  bytes_injective : Function.Injective (Hashing.bytes : H → Str)

section

variable {ι H : Type}

/-- Built from constants, field accesses, composites and applications, where every hash in a composite
is that of a current atom. -/
inductive Grounded (V : View ι H) : Expr ι H → Prop where
  | const (v : Value ι) : Grounded V (.eConst v)
  | fieldAccess (field : Str) (source : Expr ι H) (below : Grounded V source) :
      Grounded V (.eFieldAccess field source)
  | compose (hs : List H) (atom : H → CausalAtom ι H)
      (found : ∀ h ∈ hs, V.atom h = some (atom h))
      (current : ∀ h ∈ hs, V.current (atom h).path = some (atom h))
      (below : ∀ h ∈ hs, Grounded V (atom h).expr) : Grounded V (.eCompose hs)
  | apply (func arg : Expr ι H) (belowFunc : Grounded V func) (belowArg : Grounded V arg) :
      Grounded V (.eApply func arg)

/-- `e'` is the expression of an atom in the composite `e`. -/
def RefersTo (V : View ι H) (e e' : Expr ι H) : Prop :=
  ∃ hs h a, e = .eCompose hs ∧ h ∈ hs ∧ V.atom h = some a ∧ a.expr = e'

/-- The expressions that are met on the way from `e` through composites. -/
abbrev LeadsTo (V : View ι H) : Expr ι H → Expr ι H → Prop := Relation.ReflTransGen (RefersTo V)

/-- SHA-3 has no collision among the expressions that `e` leads to. -/
def NoCollision [Hashing H] (V : View ι H) (e : Expr ι H) : Prop :=
  ∀ e₁ e₂, LeadsTo V e e₁ → LeadsTo V e e₂ → e₁.exprHash = e₂.exprHash → e₁.serialize = e₂.serialize

/-- Constants and composites all the way down. -/
def PlainBelow (V : View ι H) (e : Expr ι H) : Prop := ∀ e', LeadsTo V e e' → IsPlain e'

/-- The constants below the expression are told apart by their bytes. -/
def ToldApart (V : View ι H) (e : Expr ι H) : Prop :=
  ∀ v₁ v₂, LeadsTo V e (.eConst v₁) → LeadsTo V e (.eConst v₂) → v₁.serialize = v₂.serialize → v₁ = v₂

variable [Inhabited ι]

/-- The value of an expression whose hashes lead to current atoms all the way down. -/
inductive Unfolds (V : View ι H) : Expr ι H → Value ι → Prop where
  | const (v : Value ι) : Unfolds V (.eConst v) v
  | compose (hs : List H) (atom : H → CausalAtom ι H) (value : H → Value ι)
      (found : ∀ h ∈ hs, V.atom h = some (atom h))
      (current : ∀ h ∈ hs, V.current (atom h).path = some (atom h))
      (below : ∀ h ∈ hs, Unfolds V (atom h).expr (value h)) :
      Unfolds V (.eCompose hs) (newRecord (hs.map fun h => ((atom h).path, value h)))

variable {V : View ι H} {e e' : Expr ι H} {d v : Value ι}

/-! ### What an expression leads to -/

variable {atom : H → CausalAtom ι H}

section

omit [Inhabited ι]

theorem refersTo_compose {hs : List H} (found : ∀ h ∈ hs, V.atom h = some (atom h)) :
    RefersTo V (.eCompose hs) e ↔ ∃ h ∈ hs, (atom h).expr = e := by
  constructor
  · rintro ⟨hs', h, a, heq, hmem, ha, rfl⟩
    obtain rfl := Expr.eCompose.inj heq
    rw [found h hmem] at ha
    obtain rfl := Option.some.inj ha
    exact ⟨h, hmem, rfl⟩
  · rintro ⟨h, hmem, rfl⟩
    exact ⟨hs, h, atom h, rfl, hmem, found h hmem, rfl⟩

theorem leadsTo_leaf (he : ∀ hs, e ≠ .eCompose hs) : LeadsTo V e e' ↔ e' = e := by
  constructor
  · intro h
    rcases h.cases_head with rfl | ⟨c, ⟨hs, -, -, hc, -⟩, -⟩
    · rfl
    · exact absurd hc (he hs)
  · rintro rfl
    exact .refl

theorem leadsTo_const {u : Value ι} : LeadsTo V (.eConst u) e ↔ e = .eConst u :=
  leadsTo_leaf fun _ h => by cases h

theorem leadsTo_compose {hs : List H} (found : ∀ h ∈ hs, V.atom h = some (atom h)) :
    LeadsTo V (.eCompose hs) e ↔ e = .eCompose hs ∨ ∃ h ∈ hs, LeadsTo V (atom h).expr e := by
  rw [LeadsTo, Relation.ReflTransGen.cases_head_iff]
  simp only [refersTo_compose found]
  constructor
  · rintro (rfl | ⟨c, ⟨h, hmem, rfl⟩, hc⟩)
    · exact Or.inl rfl
    · exact Or.inr ⟨h, hmem, hc⟩
  · rintro (rfl | ⟨h, hmem, hc⟩)
    · exact Or.inl rfl
    · exact Or.inr ⟨_, ⟨h, hmem, rfl⟩, hc⟩

end

theorem Unfolds.unique (h : Unfolds V e d) : ∀ d', Unfolds V e d' → d = d' := by
  induction h with
  | const v =>
    intro d' h'
    cases h'
    rfl
  | compose hs atom value found _ _ ih =>
    intro d' h'
    cases h' with
    | compose _ atom' value' found' _ below' =>
      congr 1
      refine map_congr_left fun h hmem => ?_
      have hatom : atom h = atom' h :=
        Option.some.inj ((found h hmem).symm.trans (found' h hmem))
      rw [hatom, ih h hmem (value' h) (hatom ▸ below' h hmem)]

theorem Grounded.unfolds (h : Grounded V e) (hplain : PlainBelow V e) : ∃ d, Unfolds V e d := by
  induction h with
  | const v => exact ⟨v, .const v⟩
  | fieldAccess => exact (hplain _ .refl).elim
  | apply => exact (hplain _ .refl).elim
  | compose hs atom found current _ ih =>
    have hbelow : ∀ h, ∃ d, h ∈ hs → Unfolds V (atom h).expr d := by
      intro h
      by_cases hmem : h ∈ hs
      · obtain ⟨d, hd⟩ := ih h hmem fun e' he' =>
          hplain e' ((leadsTo_compose found).2 (.inr ⟨h, hmem, he'⟩))
        exact ⟨d, fun _ => hd⟩
      · exact ⟨.vNull, fun hmem' => absurd hmem' hmem⟩
    choose value hvalue using hbelow
    exact ⟨_, .compose hs atom value found current hvalue⟩

end

section

variable {ι H : Type} [Inhabited ι] [DecidableEq H] [Hashing H] {V : View ι H} {e : Expr ι H}
  {d v : Value ι} {T T' : NodeCache ι H}

/-! ### One step of `reduceTree` -/

omit [Inhabited ι] [Hashing H] in
theorem eval_resolveAtom_of_current {h : H} {a : CausalAtom ι H} (ha : V.atom h = some a)
    (hcur : V.current a.path = some a) : (resolveAtom h : StoreProg ι H _).eval V.answer = some a := by
  unfold resolveAtom
  simp only [Prog.eval_bind, Prog.eval_ask, View.answer_getAtom, ha]
  split_ifs
  · simp only [Prog.eval_bind, Prog.eval_ask, View.answer_getCurrent, hcur, Prog.eval_pure]
  · simp only [Prog.eval_ask, View.answer_getAtom, ha]

theorem eval_reduceTree_const_cases {fuel : ℕ} {u : Value ι}
    (h : (reduceTree fuel (.eConst u) T).eval V.answer = (.ok v, T')) :
    T.lookup (Expr.eConst u : Expr ι H).exprHash = some v ∧ T' = T ∨
      T.lookup (Expr.eConst u : Expr ι H).exprHash = none ∧ v = u ∧
        T' = T.insert (Expr.eConst u : Expr ι H).exprHash u := by
  cases fuel with
  | zero =>
    obtain ⟨hbad, -⟩ := Prod.mk.inj h
    cases hbad
  | succ n =>
    rw [reduceTree] at h
    cases hk : T.lookup (Expr.eConst u : Expr ι H).exprHash with
    | some w =>
      rw [hk] at h
      obtain ⟨hv, rfl⟩ := Prod.mk.inj h
      obtain rfl := Except.ok.inj hv
      exact Or.inl ⟨rfl, rfl⟩
    | none =>
      rw [hk] at h
      obtain ⟨hv, rfl⟩ := Prod.mk.inj h
      obtain rfl := Except.ok.inj hv
      exact Or.inr ⟨rfl, rfl, rfl⟩

variable {hs : List H} {root : Expr ι H}

theorem eval_reduceTree_compose_cases {fuel : ℕ}
    (h : (reduceTree fuel (.eCompose hs) T).eval V.answer = (.ok v, T')) :
    T.lookup (Expr.eCompose hs : Expr ι H).exprHash = some v ∧ T' = T ∨
      T.lookup (Expr.eCompose hs : Expr ι H).exprHash = none ∧ ∃ n fields T₁,
        (reduceAtoms (reduceTree n) hs T).eval V.answer = (.ok fields, T₁) ∧ v = newRecord fields ∧
        T' = T₁.insert (Expr.eCompose hs : Expr ι H).exprHash v := by
  cases fuel with
  | zero =>
    obtain ⟨hbad, -⟩ := Prod.mk.inj h
    cases hbad
  | succ n =>
    rw [reduceTree] at h
    cases hk : T.lookup (Expr.eCompose hs : Expr ι H).exprHash with
    | some w =>
      rw [hk] at h
      obtain ⟨hv, rfl⟩ := Prod.mk.inj h
      obtain rfl := Except.ok.inj hv
      exact Or.inl ⟨rfl, rfl⟩
    | none =>
      rw [hk] at h
      simp only [Prog.eval_bind] at h
      obtain ⟨r, T₁, hr⟩ : ∃ r T₁, (reduceAtoms (reduceTree n) hs T).eval V.answer = (r, T₁) :=
        ⟨_, _, rfl⟩
      rw [hr] at h
      cases r with
      | error f =>
        obtain ⟨hbad, -⟩ := Prod.mk.inj h
        cases hbad
      | ok fields =>
        obtain ⟨hv, rfl⟩ := Prod.mk.inj h
        obtain rfl := Except.ok.inj hv
        exact Or.inr ⟨rfl, n, fields, T₁, hr, rfl, rfl⟩

omit [Inhabited ι] in
theorem eval_reduceAtoms_cons_cases
    {reduce : Expr ι H → NodeCache ι H → StoreProg ι H (Evaluated (Value ι) ι H)} {h : H}
    {a : CausalAtom ι H} {fields : List (Str × Value ι)}
    (ha : (resolveAtom h : StoreProg ι H _).eval V.answer = some a)
    (heval : (reduceAtoms reduce (h :: hs) T).eval V.answer = (.ok fields, T')) :
    ∃ v T₁ fields', (reduce a.expr T).eval V.answer = (.ok v, T₁) ∧
      (reduceAtoms reduce hs T₁).eval V.answer = (.ok fields', T') ∧ fields = (a.path, v) :: fields' := by
  rw [reduceAtoms] at heval
  simp only [Prog.eval_bind, ha] at heval
  obtain ⟨r, T₁, hr⟩ : ∃ r T₁, (reduce a.expr T).eval V.answer = (r, T₁) := ⟨_, _, rfl⟩
  rw [hr] at heval
  cases r with
  | error f =>
    obtain ⟨hbad, -⟩ := Prod.mk.inj heval
    cases hbad
  | ok v =>
    simp only [Prog.eval_bind] at heval
    obtain ⟨rs, T₂, hrs⟩ : ∃ rs T₂, (reduceAtoms reduce hs T₁).eval V.answer = (rs, T₂) :=
      ⟨_, _, rfl⟩
    rw [hrs] at heval
    cases rs with
    | error f =>
      obtain ⟨hbad, -⟩ := Prod.mk.inj heval
      cases hbad
    | ok fields' =>
      obtain ⟨hf, rfl⟩ := Prod.mk.inj heval
      obtain rfl := Except.ok.inj hf
      exact ⟨v, T₁, fields', hr, hrs, rfl⟩

/-! ### What the table holds -/

/-- The node cache has only grown. -/
def EntriesIn (T T' : NodeCache ι H) : Prop := ∀ k v, T.lookup k = some v → T'.lookup k = some v

/-- The table has the value of everything that `e` leads to. -/
def Covers (V : View ι H) (T : NodeCache ι H) (e : Expr ι H) : Prop :=
  ∀ e', LeadsTo V e e' → ∃ d, Unfolds V e' d ∧ T.lookup e'.exprHash = some d

/-- Every entry is there for an expression below `root` that the table covers. -/
def Explained (V : View ι H) (root : Expr ι H) (T : NodeCache ι H) : Prop :=
  ∀ k v, T.lookup k = some v → ∃ e, LeadsTo V root e ∧ e.exprHash = k ∧ Covers V T e

omit [Inhabited ι] [Hashing H] in
theorem EntriesIn.insert {T₁ : NodeCache ι H} (h : EntriesIn T T₁) {k : H}
    (hk : T.lookup k = none ∨ T.lookup k = some v) : EntriesIn T (T₁.insert k v) := by
  intro k' v' h'
  rw [GoMap.lookup_insert]
  split_ifs with heq
  · subst heq
    rcases hk with hk | hk
    · rw [hk] at h'
      cases h'
    · exact hk.symm.trans h'
  · exact h k' v' h'

theorem Covers.mono (h : Covers V T e) (hT : EntriesIn T T') : Covers V T' e := by
  intro e' he'
  obtain ⟨d, hd, hk⟩ := h e' he'
  exact ⟨d, hd, hT _ _ hk⟩

theorem explained_empty (root : Expr ι H) : Explained V root ∅ := by
  intro k v hk
  rw [AList.lookup_empty] at hk
  cases hk

theorem Explained.insert (hroot : LeadsTo V root e) (h : Explained V root T)
    (hT : EntriesIn T (T.insert e.exprHash v)) (hcov : Covers V (T.insert e.exprHash v) e) :
    Explained V root (T.insert e.exprHash v) := by
  intro k u hk
  rw [GoMap.lookup_insert] at hk
  split_ifs at hk with heq
  · exact ⟨e, hroot, heq.symm, hcov⟩
  · obtain ⟨e', hroot', rfl, hcov'⟩ := h k u hk
    exact ⟨e', hroot', rfl, hcov'.mono hT⟩

section Loop

variable {reduce : Expr ι H → NodeCache ι H → StoreProg ι H (Evaluated (Value ι) ι H)}
  {atom : H → CausalAtom ι H}

/-- What is reduced by `reduce` is in the table afterwards, with what was there before. -/
def Grows (V : View ι H) (reduce : Expr ι H → NodeCache ι H → StoreProg ι H (Evaluated (Value ι) ι H))
    (e : Expr ι H) : Prop :=
  ∀ T v T', (reduce e T).eval V.answer = (.ok v, T') →
    EntriesIn T T' ∧ T'.lookup e.exprHash = some v

omit [Inhabited ι] in
theorem fields_of_grows : ∀ {hs : List H},
    (∀ h ∈ hs, (resolveAtom h : StoreProg ι H _).eval V.answer = some (atom h)) →
    (∀ h ∈ hs, Grows V reduce (atom h).expr) → ∀ {T fields T'},
    (reduceAtoms reduce hs T).eval V.answer = (.ok fields, T') →
    EntriesIn T T' ∧ ∃ value : H → Value ι,
      fields = hs.map (fun h => ((atom h).path, value h)) ∧
      ∀ h ∈ hs, T'.lookup (atom h).expr.exprHash = some (value h)
  | [], _, _, T, fields, T', heval => by
    obtain ⟨hf, rfl⟩ := Prod.mk.inj heval
    obtain rfl := Except.ok.inj hf
    exact ⟨fun _ _ hk => hk, fun _ => .vNull, rfl, by simp⟩
  | h :: hs, hres, hgrow, T, fields, T', heval => by
    obtain ⟨v, T₁, fields', hone, hrest, rfl⟩ :=
      eval_reduceAtoms_cons_cases (hres h (.head _)) heval
    obtain ⟨hT, hv⟩ := hgrow h (.head _) T v T₁ hone
    obtain ⟨hT₁, value, rfl, hvalue⟩ := fields_of_grows
      (forall_mem_cons.1 hres).2
      (forall_mem_cons.1 hgrow).2 hrest
    have hhead := hT₁ _ _ hv
    refine ⟨fun k u hk => hT₁ k u (hT k u hk),
      fun h' => (T'.lookup (atom h').expr.exprHash).getD .vNull, ?_, ?_⟩
    · simp only [map_cons, hhead, Option.getD_some, List.cons.injEq, true_and]
      exact map_congr_left fun h' hmem => by rw [hvalue h' hmem, Option.getD_some]
    · intro h' hmem
      rcases mem_cons.1 hmem with rfl | hmem
      · simp only [hhead, Option.getD_some]
      · simp only [hvalue h' hmem, Option.getD_some]

theorem covers_of_loop {root : Expr ι H} {value : H → Value ι} : ∀ {hs : List H},
    (∀ h ∈ hs, (resolveAtom h : StoreProg ι H _).eval V.answer = some (atom h)) →
    (∀ h ∈ hs, Grows V reduce (atom h).expr) →
    (∀ h ∈ hs, ∀ T T', Explained V root T →
      (reduce (atom h).expr T).eval V.answer = (.ok (value h), T') →
      Explained V root T' ∧ Covers V T' (atom h).expr) → ∀ {T fields T'}, Explained V root T →
    (reduceAtoms reduce hs T).eval V.answer = (.ok fields, T') →
    (∀ h ∈ hs, T'.lookup (atom h).expr.exprHash = some (value h)) →
    Explained V root T' ∧ ∀ h ∈ hs, Covers V T' (atom h).expr
  | [], _, _, _, T, fields, T', hT, heval, _ => by
    obtain ⟨-, rfl⟩ := Prod.mk.inj heval
    exact ⟨hT, by simp⟩
  | h :: hs, hres, hgrow, hstep, T, fields, T', hT, heval, hright => by
    obtain ⟨v, T₁, fields', hone, hrest, rfl⟩ :=
      eval_reduceAtoms_cons_cases (hres h (.head _)) heval
    have hgrow' : ∀ h' ∈ hs, Grows V reduce (atom h').expr := (forall_mem_cons.1 hgrow).2
    have hres' : ∀ h' ∈ hs, (resolveAtom h' : StoreProg ι H _).eval V.answer = some (atom h') :=
      (forall_mem_cons.1 hres).2
    have hin := (fields_of_grows hres' hgrow' hrest).1
    -- an entry that is right at the end was right when it was made
    obtain rfl : v = value h := by
      have hv := hin _ _ (hgrow h (.head _) T v T₁ hone).2
      rw [hright h (.head _)] at hv
      exact (Option.some.inj hv).symm
    obtain ⟨hT₁, hcov⟩ := hstep h (.head _) T T₁ hT hone
    obtain ⟨hT', hcovs⟩ := covers_of_loop hres' hgrow'
      (forall_mem_cons.1 hstep).2 hT₁ hrest
      (forall_mem_cons.1 hright).2
    refine ⟨hT', fun h' hmem => ?_⟩
    rcases mem_cons.1 hmem with rfl | hmem
    · exact hcov.mono hin
    · exact hcovs h' hmem

theorem fields_of_right {root : Expr ι H} {value : H → Value ι} : ∀ {hs : List H},
    (∀ h ∈ hs, (resolveAtom h : StoreProg ι H _).eval V.answer = some (atom h)) →
    (∀ h ∈ hs, ∀ T v T', Explained V root T →
      (reduce (atom h).expr T).eval V.answer = (.ok v, T') → v = value h ∧ Explained V root T') →
    ∀ {T fields T'}, Explained V root T →
    (reduceAtoms reduce hs T).eval V.answer = (.ok fields, T') →
    fields = hs.map fun h => ((atom h).path, value h)
  | [], _, _, _, _, _, _, heval => by
    obtain ⟨hf, -⟩ := Prod.mk.inj heval
    exact (Except.ok.inj hf).symm
  | h :: hs, hres, hstep, T, fields, T', hT, heval => by
    obtain ⟨v, T₁, fields', hone, hrest, rfl⟩ :=
      eval_reduceAtoms_cons_cases (hres h (.head _)) heval
    obtain ⟨rfl, hT₁⟩ := hstep h (.head _) T v T₁ hT hone
    rw [map_cons, fields_of_right (forall_mem_cons.1 hres).2
      (forall_mem_cons.1 hstep).2 hT₁ hrest]

omit [Inhabited ι] in
theorem loop_terminates : ∀ {hs : List H},
    (∀ h ∈ hs, (resolveAtom h : StoreProg ι H _).eval V.answer = some (atom h)) →
    (∀ h ∈ hs, ∀ T, ∃ v T', (reduce (atom h).expr T).eval V.answer = (.ok v, T')) → ∀ T,
    ∃ fields T', (reduceAtoms reduce hs T).eval V.answer = (.ok fields, T')
  | [], _, _, T => ⟨[], T, rfl⟩
  | h :: hs, hres, hred, T => by
    obtain ⟨v, T₁, hone⟩ := hred h (.head _) T
    obtain ⟨fields, T₂, hrest⟩ := loop_terminates
      (forall_mem_cons.1 hres).2
      (forall_mem_cons.1 hred).2 T₁
    refine ⟨((atom h).path, v) :: fields, T₂, ?_⟩
    rw [reduceAtoms]
    simp only [Prog.eval_bind, hres h (.head _), hone, hrest, Prog.eval_pure]
    rfl

end Loop

/-! ### What `reduceTree` returns -/

omit [DecidableEq H] in
theorem flatMap_bytes_injective [Digests H] : ∀ hs hs' : List H,
    hs.flatMap Hashing.bytes = hs'.flatMap Hashing.bytes → hs = hs'
  | [], [], _ => rfl
  | [], h' :: hs', heq => by
    have hlen := congrArg List.length heq
    rw [flatMap_cons, length_append, Digests.length_bytes, flatMap_nil,
      length_nil] at hlen
    omega
  | h :: hs, [], heq => by
    have hlen := congrArg List.length heq
    rw [flatMap_cons, length_append, Digests.length_bytes, flatMap_nil,
      length_nil] at hlen
    omega
  | h :: hs, h' :: hs', heq => by
    rw [flatMap_cons, flatMap_cons] at heq
    have hlen : (Hashing.bytes h).length = (Hashing.bytes h').length :=
      (Digests.length_bytes h).trans (Digests.length_bytes h').symm
    obtain ⟨hone, hrest⟩ := append_inj heq hlen
    rw [Digests.bytes_injective hone, flatMap_bytes_injective hs hs' hrest]

omit [DecidableEq H] [Inhabited ι] in
theorem eq_compose_of_serialize [Digests H]
    (h : e.serialize = (Expr.eCompose hs : Expr ι H).serialize) : e = .eCompose hs := by
  cases e with
  | eCompose hs' => rw [flatMap_bytes_injective hs' hs (List.cons.inj h).2]
  | _ => exact absurd (List.cons.inj h).1 (by decide)

omit [Inhabited ι] [DecidableEq H] in
theorem eq_const_of_serialize {u : Value ι} (h : e.serialize = (Expr.eConst u : Expr ι H).serialize) :
    ∃ u', e = .eConst u' ∧ u'.serialize = u.serialize := by
  cases e with
  | eConst u' => exact ⟨u', rfl, (List.cons.inj h).2⟩
  | _ => exact absurd (List.cons.inj h).1 (by decide)

omit [DecidableEq H] [Hashing H] in
theorem values_of_newRecord_eq {path : H → Str} {f g : H → Value ι}
    (hf : ∀ h ∈ hs, ∀ h' ∈ hs, path h = path h' → f h = f h')
    (hg : ∀ h ∈ hs, ∀ h' ∈ hs, path h = path h' → g h = g h')
    (heq : newRecord (hs.map fun h => (path h, f h)) = newRecord (hs.map fun h => (path h, g h))) :
    ∀ h ∈ hs, f h = g h := by
  intro h hmem
  have hk := (newRecord_eq_iff _ _).1 heq (path h)
  simp only [← map_reverse, List.find?_map, Option.map_map] at hk
  -- both records take the value of the last hash with the path
  obtain ⟨h', hfind⟩ : ∃ h', hs.reverse.find? (fun h' => path h' = path h) = some h' :=
    Option.isSome_iff_exists.1 (List.find?_isSome.2 ⟨h, mem_reverse.2 hmem, by simp⟩)
  have hmem' := mem_reverse.1 (mem_of_find?_eq_some hfind)
  have hpath : path h' = path h := by simpa using List.find?_some hfind
  have hlast : f h' = g h' := by
    change (hs.reverse.find? fun h' => path h' = path h).map f =
      (hs.reverse.find? fun h' => path h' = path h).map g at hk
    rw [hfind] at hk
    exact Option.some.inj hk
  rw [hf h hmem h' hmem' hpath.symm, hlast, hg h' hmem' h hmem hpath]

theorem Unfolds.grows (h : Unfolds V e d) : ∀ fuel, Grows V (reduceTree fuel) e := by
  induction h with
  | const u =>
    intro fuel T v T' heval
    rcases eval_reduceTree_const_cases heval with ⟨hk, rfl⟩ | ⟨hk, rfl, rfl⟩
    · exact ⟨fun _ _ h => h, hk⟩
    · exact ⟨EntriesIn.insert (fun _ _ h => h) (.inl hk), by rw [GoMap.lookup_insert, if_pos rfl]⟩
  | compose hs atom value found current below ih =>
    intro fuel T v T' heval
    rcases eval_reduceTree_compose_cases heval with ⟨hk, rfl⟩ | ⟨hk, n, fields, T₁, hloop, rfl, rfl⟩
    · exact ⟨fun _ _ h => h, hk⟩
    · have hin := (fields_of_grows
        (fun h hmem => eval_resolveAtom_of_current (found h hmem) (current h hmem))
        (fun h hmem => ih h hmem n) hloop).1
      exact ⟨hin.insert (.inl hk), by rw [GoMap.lookup_insert, if_pos rfl]⟩

theorem exists_bound {α : Type} {Q : α → ℕ → Prop} : ∀ {l : List α},
    (∀ x ∈ l, ∃ bound, ∀ n ≥ bound, Q x n) → ∃ bound, ∀ n ≥ bound, ∀ x ∈ l, Q x n
  | [], _ => ⟨0, by simp⟩
  | x :: l, h => by
    obtain ⟨bx, hx⟩ := h x (.head _)
    obtain ⟨bl, hl⟩ := exists_bound (forall_mem_cons.1 h).2
    refine ⟨max bx bl, fun n hn y hy => ?_⟩
    rcases mem_cons.1 hy with rfl | hy
    · exact hx n (le_of_max_le_left hn)
    · exact hl n (le_of_max_le_right hn) y hy

theorem Unfolds.terminates (h : Unfolds V e d) : ∃ bound, ∀ fuel ≥ bound, ∀ T : NodeCache ι H,
    ∃ v T', (reduceTree fuel e T).eval V.answer = (.ok v, T') := by
  induction h with
  | const u =>
    refine ⟨1, fun fuel hfuel T => ?_⟩
    obtain ⟨n, rfl⟩ := Nat.exists_eq_add_of_le' hfuel
    exact eval_reduceTree_const u n T
  | compose hs atom value found current _ ih =>
    obtain ⟨bound, hbound⟩ := exists_bound ih
    refine ⟨bound + 1, fun fuel hfuel T => ?_⟩
    obtain ⟨n, rfl⟩ := Nat.exists_eq_add_of_le' (Nat.le_of_add_left_le hfuel)
    rw [reduceTree]
    cases hk : T.lookup (Expr.eCompose hs : Expr ι H).exprHash with
    | some v => exact ⟨v, T, rfl⟩
    | none =>
      obtain ⟨fields, T₁, hloop⟩ := loop_terminates
        (fun h hmem => eval_resolveAtom_of_current (found h hmem) (current h hmem))
        (hbound n (Nat.le_of_succ_le_succ hfuel)) T
      simp only [Prog.eval_bind, hloop, Prog.eval_pure]
      exact ⟨_, _, rfl⟩

/-- **A right value has a covered expression**: as long as the values are right, the table has the
values of all that was reduced. -/
theorem covers_of_eval [Digests H] (hroot : NoCollision V root) (h : Unfolds V e d) :
    ∀ {fuel T T'}, LeadsTo V root e → Explained V root T →
      (reduceTree fuel e T).eval V.answer = (.ok d, T') → Explained V root T' ∧ Covers V T' e := by
  induction h with
  | const u =>
    intro fuel T T' hlead hT heval
    have hcov : Covers V T' (.eConst u) := by
      intro e' he'
      obtain rfl := leadsTo_const.1 he'
      exact ⟨u, .const u, ((Unfolds.const u).grows fuel T u T' heval).2⟩
    rcases eval_reduceTree_const_cases heval with ⟨-, rfl⟩ | ⟨hk, -, rfl⟩
    · exact ⟨hT, hcov⟩
    · exact ⟨hT.insert hlead (EntriesIn.insert (fun _ _ h => h) (.inl hk)) hcov, hcov⟩
  | compose hs atom value found current below ih =>
    intro fuel T T' hlead hT heval
    have hres : ∀ h ∈ hs, (resolveAtom h : StoreProg ι H _).eval V.answer = some (atom h) :=
      fun h hmem => eval_resolveAtom_of_current (found h hmem) (current h hmem)
    have hchild : ∀ h ∈ hs, LeadsTo V root (atom h).expr := fun h hmem =>
      hlead.tail ((refersTo_compose found).2 ⟨h, hmem, rfl⟩)
    -- an entry under the hash of the composite is there for the composite
    have hown : ∀ {T u}, Explained V root T →
        T.lookup (Expr.eCompose hs : Expr ι H).exprHash = some u → Covers V T (.eCompose hs) := by
      intro T u hT hu
      obtain ⟨e', hlead', hhash, hcov⟩ := hT _ _ hu
      rwa [eq_compose_of_serialize (hroot e' _ hlead' hlead hhash)] at hcov
    rcases eval_reduceTree_compose_cases heval with ⟨hk, rfl⟩ | ⟨hk, n, fields, T₁, hloop, hd, rfl⟩
    · exact ⟨hT, hown hT hk⟩
    · obtain ⟨-, value', rfl, hvalue'⟩ :=
        fields_of_grows hres (fun h hmem => (below h hmem).grows n) hloop
      have hsame : ∀ h ∈ hs, ∀ h' ∈ hs, (atom h).path = (atom h').path → atom h = atom h' :=
        fun h hmem h' hmem' hpath => Option.some.inj
          ((current h hmem).symm.trans (hpath ▸ current h' hmem'))
      have hright : ∀ h ∈ hs, value h = value' h := by
        refine values_of_newRecord_eq (fun h hmem h' hmem' hpath => ?_)
          (fun h hmem h' hmem' hpath => ?_) hd
        · exact (below h hmem).unique _ (hsame h hmem h' hmem' hpath ▸ below h' hmem')
        · have hlook := hvalue' h hmem
          rw [hsame h hmem h' hmem' hpath, hvalue' h' hmem'] at hlook
          exact (Option.some.inj hlook).symm
      obtain ⟨hT₁, hcovs⟩ := covers_of_loop hres (fun h hmem => (below h hmem).grows n)
        (fun h hmem T T' hT heval => ih h hmem (hchild h hmem) hT heval) hT hloop
        (fun h hmem => by rw [hvalue' h hmem, hright h hmem])
      have hin : EntriesIn T₁ (T₁.insert (Expr.eCompose hs : Expr ι H).exprHash
          (newRecord (hs.map fun h => ((atom h).path, value h)))) := by
        refine EntriesIn.insert (fun _ _ h => h) ?_
        cases hk₁ : T₁.lookup (Expr.eCompose hs : Expr ι H).exprHash with
        | none => exact Or.inl rfl
        | some u =>
          obtain ⟨d, hd, hlook⟩ := hown hT₁ hk₁ _ .refl
          rw [hk₁] at hlook
          rw [Option.some.inj hlook, hd.unique _ (.compose hs atom value found current below)]
          exact Or.inr rfl
      have hcov : Covers V (T₁.insert (Expr.eCompose hs : Expr ι H).exprHash
          (newRecord (hs.map fun h => ((atom h).path, value h)))) (.eCompose hs) := by
        intro e' he'
        rcases (leadsTo_compose found).1 he' with rfl | ⟨h, hmem, hc⟩
        · exact ⟨_, .compose hs atom value found current below,
            by rw [GoMap.lookup_insert, if_pos rfl]⟩
        · exact (hcovs h hmem).mono hin e' hc
      exact ⟨hT₁.insert hlead hin hcov, hcov⟩

theorem eq_of_toldApart [Digests H] (hroot : NoCollision V root) (happart : ToldApart V root)
    (h : Unfolds V e d) : ∀ {fuel T v T'}, LeadsTo V root e →
      Explained V root T → (reduceTree fuel e T).eval V.answer = (.ok v, T') → v = d := by
  induction h with
  | const u =>
    intro fuel T v T' hlead hT heval
    rcases eval_reduceTree_const_cases heval with ⟨hk, -⟩ | ⟨-, hv, -⟩
    · obtain ⟨e', hlead', hhash, hcov⟩ := hT _ _ hk
      obtain ⟨u', rfl, hbytes⟩ := eq_const_of_serialize (hroot e' _ hlead' hlead hhash)
      obtain ⟨d, hd, hlook⟩ := hcov _ .refl
      cases hd
      rw [hhash, hk] at hlook
      rw [Option.some.inj hlook]
      exact happart u' u hlead' hlead hbytes
    · exact hv
  | compose hs atom value found current below ih =>
    intro fuel T v T' hlead hT heval
    rcases eval_reduceTree_compose_cases heval with ⟨hk, -⟩ | ⟨-, n, fields, T₁, hloop, rfl, -⟩
    · obtain ⟨e', hlead', hhash, hcov⟩ := hT _ _ hk
      rw [eq_compose_of_serialize (hroot e' _ hlead' hlead hhash)] at hcov
      obtain ⟨d, hd, hlook⟩ := hcov _ .refl
      rw [hk] at hlook
      rw [Option.some.inj hlook, hd.unique _ (.compose hs atom value found current below)]
    · rw [fields_of_right
        (fun h hmem => eval_resolveAtom_of_current (found h hmem) (current h hmem))
        (fun h hmem T v T' hT heval => ?_) hT hloop]
      have hchild : LeadsTo V root (atom h).expr :=
        hlead.tail ((refersTo_compose found).2 ⟨h, hmem, rfl⟩)
      obtain rfl := ih h hmem hchild hT heval
      exact ⟨rfl, (covers_of_eval hroot (below h hmem) hchild hT heval).1⟩

end

end Wavicle.Engine
