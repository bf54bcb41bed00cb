import Wavicle.Resp3.Updates

/-! # Counters

`INCR`, `DECR`, `INCRBY` and `DECRBY` add 64-bit integers, which wrap. A result that does not fit is stored and
replied as another number. A result that fits is right if the type index lets the command through and the store
takes the text in.

* `Server.TakesText`: a text that is written without a deadline is then the value of its key.
* `CountsExactly`: the reply and the value after the command are the exact result, or the command is refused.
* `countsExactly_iff`: when this is so, by the state before the command. -/

namespace Wavicle.Resp3

open Lib Wavicle.Core Storage Engine Prog

section

variable {H : Type} [DecidableEq H] [Hashing H] {s t : Server (World Ref H) H} {key : Str}

/-! ### What is stored -/

/-- **The key takes in a text**: if the resident atom has the same content, it is that text, and else no other
constant is interned for the text and the new entry is not evicted at once. -/
def Server.TakesText (s : Server (World Ref H) H) (key text : Str) : Prop :=
  if s.store.repeats (.eConst (s.constant (.vString text))) key zeroTime then
    s.value key = some (some (.vString text))
  else s.constant (.vString text) = .vString text ∧
    s.store.retains (.eConst (s.constant (.vString text))) key zeroTime = true

theorem Server.Applies.value_iff_takesText {text : Str} (h : s.Applies key (.put [] (.vString text)) t)
    (hs : s.store.Inv) (hl : s.store.cache.Limited) :
    t.value key = some (some (.vString text)) ↔ s.TakesText key text := by
  have hlive := h.live_eq hs hl rfl
  unfold Server.value Server.TakesText
  rw [hlive]
  change (if s.store.repeats (.eConst (s.constant (.vString text))) key zeroTime then s.live key else _).map _ = _ ↔ _
  split_ifs with hrep hkept
  · rfl
  · rw [Option.map_some, Option.some.injEq]
    exact ⟨fun heq => ⟨Option.some.inj heq, hkept.1⟩, fun heq => congrArg some heq.1⟩
  · refine iff_of_false (by simp) fun heq => hkept ⟨heq.2, fun hnull => ?_⟩
    cases heq.1.symm.trans (Expr.eConst.inj hnull)

/-! ### The number of a key -/

variable [Floats] [Spaces]

def Counter.change : Counter → List Str → Option ℤ
  | .incr, _ => some 1
  | .decr, _ => some (-1)
  | .incrBy, d :: _ => (parseInt d).map Int64.toInt
  | .decrBy, d :: _ => (parseInt d).map fun d => -d.toInt
  | _, [] => none

/-- The number is an `int64`. -/
def FitsInt64 (n : ℤ) : Prop := -2 ^ 63 ≤ n ∧ n < 2 ^ 63

section

omit [Floats] [Spaces]

theorem toInt_ofInt_iff {n : ℤ} : (Int64.ofInt n).toInt = n ↔ FitsInt64 n := by
  constructor
  · intro h
    rw [← h]
    exact ⟨Int64.le_toInt _, Int64.toInt_lt _⟩
  · exact fun h => Int64.toInt_ofInt_of_le h.1 h.2

theorem Counter.delta_of_change {cmd : Counter} {rest : List Str} {d : ℤ} (h : cmd.change rest = some d) :
    cmd.delta rest = some (.ofInt d) := by
  unfold Counter.change at h
  split at h
  · cases h
    rfl
  · cases h
    rfl
  · obtain ⟨n, hn, rfl⟩ := Option.map_eq_some_iff.1 h
    rw [Int64.ofInt_toInt]
    exact hn
  · obtain ⟨n, hn, rfl⟩ := Option.map_eq_some_iff.1 h
    rw [Int64.ofInt_neg, Int64.ofInt_toInt]
    exact Option.map_eq_some_iff.2 ⟨n, hn, rfl⟩
  · cases h

theorem ends_storeCounter (key : Str) (n : Int64) (u : Server (World Ref H) H) :
    Ends (shardedStep H) (storeCounter key n) u fun r _ => r = integerReply n.toInt := rfl

end

/-- **A counter** replies with the sum modulo 2⁶⁴, if the type of its key lets it. -/
theorem ends_counter (hs : s.store.Inv) {cmd : Counter} {rest : List Str} {c : Int64} {d : ℤ}
    (hc : s.number key = some c) (hd : cmd.change rest = some d) :
    Ends (shardedStep H) (counter cmd (key :: rest)) s fun r _ =>
      r = if s.admits key .string then integerReply (Int64.ofInt (c.toInt + d)).toInt else wrongTypeResp := by
  unfold counter
  simp only [Counter.delta_of_change hd]
  refine (ends_guard hs key .string).bind fun ok u ⟨hok, hu⟩ => ?_
  subst hok
  split_ifs
  · rw [Int64.ofInt_add, Int64.ofInt_toInt]
    refine (ends_curValue hu).bind fun v u ⟨hv, _⟩ => ?_
    have hvalue : s.value key = v := hv.symm
    unfold Server.number at hc
    rw [hvalue] at hc
    cases v with
    | none =>
      cases hc
      exact ends_storeCounter key _ u
    | some v =>
      obtain ⟨text, htext, hparse⟩ := Option.bind_eq_some_iff.1 hc
      simp only [htext, hparse]
      exact ends_storeCounter key _ u
  · exact ends_pure rfl

/-! ### Exactness -/

variable [Printing] [Unicode] [Runtime]

omit [DecidableEq H] [Printing] [Unicode] in
theorem Server.update_counter {cmd : Counter} {rest : List Str} {c : Int64} {d : ℤ}
    (hc : s.number key = some c) (hd : cmd.change rest = some d) : s.update key (.counter cmd) rest =
      if s.admits key .string then .put [] (.vString (formatInt (.ofInt (c.toInt + d)))) else .nothing := by
  unfold Server.update
  simp only [Counter.delta_of_change hd, hc, Option.elim_some]
  rw [Int64.ofInt_add, Int64.ofInt_toInt]

/-- The command replies the number and the key holds it if it fits, and else the command is refused and the key
holds what it did. -/
def CountsExactly (s : Server (World Ref H) H) (cmd : Counter) (key : Str) (rest : List Str) (n : ℤ) : Prop :=
  Ends (Server.step (shardedBackend H)) (counter cmd (key :: rest)) s fun r t =>
    (FitsInt64 n → r = integerReply n ∧ t.value key = some (some (.vString (decimalInt n)))) ∧
    (¬ FitsInt64 n → ¬ Success r ∧ t.value key = s.value key)

/-- **Counters.** A command is exact if and only if its result fits, the type index admits a string and the key takes
in the text of the result, or the result does not fit and the type index admits no string. -/
theorem countsExactly_iff (hs : s.Reachable) {cmd : Counter} {rest : List Str} {c : Int64} {d : ℤ}
    (hc : s.number key = some c) (hd : cmd.change rest = some d) :
    CountsExactly s cmd key rest (c.toInt + d) ↔ (FitsInt64 (c.toInt + d) ∧ s.admits key .string = true ∧
        s.TakesText key (decimalInt (c.toInt + d))) ∨
      ¬ FitsInt64 (c.toInt + d) ∧ s.admits key .string = false := by
  have hreply := ends_counter hs.inv hc hd
  have happlies := ends_counterUpdate hs.inv key cmd rest
  rw [Server.update_counter hc hd] at happlies
  unfold CountsExactly Ends at *
  beta_reduce at *
  rw [hreply]
  cases hadmits : s.admits key .string with
  | false =>
    rw [hadmits, if_neg Bool.false_ne_true] at happlies
    rw [if_neg Bool.false_ne_true]
    constructor
    · intro h
      refine .inr ⟨fun hfits => not_success_wrongTypeResp ?_, rfl⟩
      rw [(h.1 hfits).1]
      exact success_integerReply _
    · rintro (⟨-, h, -⟩ | ⟨hnot, -⟩)
      · cases h
      · refine ⟨fun hfits => absurd hfits hnot, fun _ => ⟨not_success_wrongTypeResp, ?_⟩⟩
        exact congrArg (Option.map _) (happlies.live_of_none rfl)
  | true =>
    rw [hadmits, if_pos rfl] at happlies
    rw [if_pos rfl]
    have htakes := happlies.value_iff_takesText hs.inv hs.limited
    constructor
    · intro h
      by_cases hfits : FitsInt64 (c.toInt + d)
      · rw [formatInt, toInt_ofInt_iff.2 hfits] at htakes
        exact .inl ⟨hfits, rfl, htakes.1 (h.1 hfits).2⟩
      · exact absurd (success_integerReply _) (h.2 hfits).1
    · rintro (⟨hfits, -, htaken⟩ | ⟨-, h⟩)
      · rw [formatInt, toInt_ofInt_iff.2 hfits] at htakes
        rw [toInt_ofInt_iff.2 hfits]
        exact ⟨fun _ => ⟨rfl, htakes.2 htaken⟩, fun hnot => absurd hfits hnot⟩
      · cases h

end

section Instances

open Plain

def atMaximum : Server (World Ref Str) Str :=
  ((Server.new (.init 0 0) 0).handle (shardedBackend Str) 9
    [str "SET", str "n", str "9223372036854775807"]).2

/-- `INCR` replies with the least number. -/
theorem incr_wraps : atMaximum.Reachable ∧ atMaximum.number (str "n") = some (2 ^ 63 - 1) ∧
    Counter.incr.change [] = some 1 ∧
    ¬ CountsExactly atMaximum .incr (str "n") [] ((2 ^ 63 - 1 : Int64).toInt + 1) := by
  refine ⟨(Server.reachable_new 0 0).command 9 _, by decide +kernel, rfl, fun h => ?_⟩
  have hnot : ¬ FitsInt64 ((2 ^ 63 - 1 : Int64).toInt + 1) := fun hfits => absurd hfits.2 (by decide +kernel)
  refine (h.2 hnot).1 ?_
  have hreply : ((counter .incr [str "n"] : ServerProg Str Str).run (Server.step (shardedBackend Str))
      atMaximum).1 = integerReply (-2 ^ 63) := by decide +kernel
  rw [hreply]
  exact success_integerReply _

theorem countsExactly_iff_absent : (Server.new (.init 0 0) 0 : Server (World Ref Str) Str).number [] = some 0 ∧
    CountsExactly (Server.new (.init 0 0) 0 : Server (World Ref Str) Str) .incr [] [] (0 + 1) := by
  have hnumber : (Server.new (.init 0 0) 0 : Server (World Ref Str) Str).number [] = some 0 := by
    decide +kernel
  refine ⟨hnumber, (countsExactly_iff (Server.reachable_new 0 0) hnumber rfl).2 (.inl ?_)⟩
  refine ⟨⟨by decide, by decide⟩, by decide +kernel, ?_⟩
  unfold Server.TakesText
  rw [if_neg (by decide +kernel)]
  exact ⟨by decide +kernel, by decide +kernel⟩

end Instances

end Wavicle.Resp3
