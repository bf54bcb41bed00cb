import Wavicle.Resp3.Counters

/-! # Deadlines

Commands that update a value append it without a deadline. `EXPIRE` and its kin multiply 64-bit integers, so that
a long time to live may end in the past.

* `keepsDeadline_iff`: an update keeps the deadline of its key exactly if it puts nothing into the store.
* `Server.TakesDeadline`: an expression that is written with a deadline is then live, with that deadline.
* `expiresExactly_iff`: when a command that sets a deadline sets the right one, by the state before it. -/

namespace Wavicle.Resp3

open Lib Wavicle.Core Storage Engine Prog

section

variable {H : Type} [DecidableEq H] [Hashing H] {s t : Server (World Ref H) H} {key : Str}

/-! ### Updates -/

omit [DecidableEq H] [Hashing H] in
theorem expiresAt_changes (cs : List Change) (a : CausalAtom Ref H) :
    (cs.foldl (fun a c => a.change c) a).expiresAt = a.expiresAt := by
  induction cs generalizing a with
  | nil => rfl
  | cons c cs ih => exact ih (a.change c)

variable [Floats] [Spaces] [Printing] [Unicode] [Runtime]

/-- Unless the command deletes the key, as one does that takes the last element, the key is live afterwards with the
deadline that it has. -/
def KeepsDeadline (s : Server (World Ref H) H) (cmd : ExtendedCommand) (key : Str) (rest : List Str) : Prop :=
  (s.effect key cmd rest).deletes = false → ∀ a, s.live key = some a →
    ∃ b, (afterExtended s cmd (key :: rest)).live key = some b ∧ b.expiresAt = a.expiresAt

/-- The key is live, and will not be for ever. -/
def HasDeadline (s : Server (World Ref H) H) (key : Str) : Prop :=
  ∃ a, s.live key = some a ∧ a.expiresAt ≠ zeroTime

/-- **Deadlines of values that are updated.** An update of a key with a deadline keeps it if and only if whatever it
puts is dropped as a duplicate of what the key holds. -/
theorem keepsDeadline_iff (hs : s.Reachable) (hd : HasDeadline s key) {cmd : ExtendedCommand}
    (h : isUpdate cmd = true) (rest : List Str) :
    KeepsDeadline s cmd key rest ↔ ∀ cs v, s.effect key cmd rest = .put cs v →
      (s.changed cs).store.repeats (.eConst ((s.changed cs).constant v)) key zeroTime = true := by
  obtain ⟨a, ha, hne⟩ := hd
  have happlies := applies_afterExtended hs.inv h key rest
  unfold KeepsDeadline
  cases heff : s.effect key cmd rest with
  | nothing =>
    rw [heff] at happlies
    refine iff_of_true (fun _ a ha => ⟨a, ?_, rfl⟩) fun cs v hput => by cases hput
    rw [happlies.live_of_none rfl, ha]
  | delete cs => exact iff_of_true (fun hnot => nomatch hnot) fun cs v hput => by cases hput
  | put cs v =>
    rw [heff] at happlies
    have hlive := happlies.live_eq hs.inv hs.limited rfl
    change _ = if (s.changed cs).store.repeats (.eConst ((s.changed cs).constant v)) key zeroTime then
      (s.changed cs).live key else _ at hlive
    constructor
    · intro hkeeps cs' v' hput
      cases hput
      by_contra hrep
      obtain ⟨b, hb, hdead⟩ := hkeeps rfl a ha
      rw [hlive, if_neg hrep, Option.ite_none_right_eq_some] at hb
      obtain ⟨-, hb⟩ := hb
      cases hb
      exact hne hdead.symm
    · intro hrep _ a ha
      rw [hlive, if_pos (hrep cs v rfl), s.live_changed, ha]
      exact ⟨_, rfl, expiresAt_changes cs a⟩

/-! ### Times to live -/

/-- The commands that set a deadline. -/
inductive Expiring where
  | expire
  | pexpire
  | setex
  | psetex

def Expiring.unit : Expiring → Int64
  | .expire | .setex => second
  | .pexpire | .psetex => millisecond

/-- The command with a key and a number, and with a text if it takes one. -/
def timed (key n text : Str) : Expiring → ServerProg H Outcome
  | .expire => expire [key, n]
  | .pexpire => do
    let reply ← pexpire [key, n]
    pure (.ok reply)
  | .setex => do
    let reply ← setex second [key, n, text]
    pure (.ok reply)
  | .psetex => do
    let reply ← setex millisecond [key, n, text]
    pure (.ok reply)

/-- `TTL` or `PTTL`, in the unit of the command -/
def remaining (key : Str) : Expiring → ServerProg H Outcome
  | .expire | .setex => ttl [key]
  | .pexpire | .psetex => do
    let reply ← pttl [key]
    pure (.ok reply)

/-- The expression that the command writes, for a key with the live atom `a`. -/
def Expiring.written (s : Server (World Ref H) H) (text : Str) (a : CausalAtom Ref H) : Expiring → Expr Ref H
  | .expire | .pexpire => a.expr
  | .setex | .psetex => .eConst (s.constant (.vString text))

/-- The command has been run and answers with no error. -/
def Accepted (r : Outcome) : Prop := ∃ reply, r = .ok reply ∧ Success reply

section

omit [Floats] [Spaces] [Printing] [Unicode] [Runtime]

/-- A read of the path before an append makes no difference to what is live. -/
theorem Server.Looked.liveIn_append {u : Server (World Ref H) H} (h : s.Looked key u) (e : Expr Ref H) (d : Time) :
    liveIn (u.store.append e key d).2 key = liveIn (s.store.append e key d).2 key := by
  rcases h.store with hstore | hstore
  · rw [hstore]
  · have hres : ∀ w : World Ref H, (w.touched key).cache.resident = w.cache.resident :=
      fun w => w.resident_getCurrent key
    have hsame := congrArg (fun w : World Ref H => w.cache.resident) (World.append_touched s.store e key d).2
    rw [hres, hres] at hsame
    rw [hstore]
    exact liveIn_of_resident (congrFun hsame key) rfl

theorem ends_liveAtom {a : CausalAtom Ref H} (ha : s.live key = some a) :
    Ends (shardedStep H) (liveAtom key) s fun r u => r = some a ∧ s.Looked key u :=
  (ends_of_peeks (peeks_liveAtom key) (.refl key s) ((finds_liveAtom key).ends (.refl s))).mono
    fun _ _ h => ⟨h.1.1.trans ha, h.2⟩

/-- What the commands do to a key with the live atom `a`. -/
theorem ends_timed {a : CausalAtom Ref H} (ha : s.live key = some a) {n : Str} {m : Int64}
    (hn : parseInt n = some m) (hm : 0 < m) (text : Str) (c : Expiring) :
    Ends (shardedStep H) (timed key n text c) s fun r t => Accepted r ∧ t.store.now = s.store.now ∧
      t.live key = liveIn (s.store.append (c.written s text a) key (deadline s.store.now m c.unit)).2 key := by
  have hpos : ¬ m ≤ 0 := Int64.not_le.2 hm
  cases c with
  | expire =>
    simp only [timed, expire, hn, if_neg hpos]
    refine (ends_liveAtom ha).bind fun found u h => ?_
    obtain ⟨rfl, hu⟩ := h
    rw [← hu.now]
    exact ⟨⟨_, rfl, success_integerReply 1⟩, rfl, hu.liveIn_append a.expr _⟩
  | pexpire =>
    have hended : Ends (shardedStep H) (pexpire [key, n]) s fun r t => Success r ∧ t.store.now = s.store.now ∧
        t.live key = liveIn (s.store.append a.expr key (deadline s.store.now m millisecond)).2 key := by
      simp only [pexpire, hn, if_neg hpos]
      refine (ends_liveAtom ha).bind fun found u h => ?_
      obtain ⟨rfl, hu⟩ := h
      rw [← hu.now]
      exact ⟨success_integerReply 1, rfl, hu.liveIn_append a.expr _⟩
    exact hended.bind fun r t h => ends_pure ⟨⟨r, rfl, h.1⟩, h.2⟩
  | setex | psetex =>
    simp only [timed, setex, hn, if_neg hpos]
    exact ⟨⟨_, rfl, success_okReply⟩, rfl, rfl⟩

theorem timeUntil_add (now : Time) {d : ℤ} (hpos : 0 < d) (hfits : d < 2 ^ 63) : timeUntil now (now + d) = d := by
  unfold timeUntil
  omega

theorem wholeSeconds_mul (n : ℕ) : wholeSeconds (n * 10 ^ 9) = n := by
  unfold wholeSeconds
  simp

theorem ends_remaining {a : CausalAtom Ref H} (ha : t.live key = some a) {m : ℤ} (hm : 0 < m) {c : Expiring}
    (hd : a.expiresAt = t.store.now + m * c.unit.toInt) (hne : a.expiresAt ≠ zeroTime)
    (hfits : m * c.unit.toInt < 2 ^ 63) :
    Ends (shardedStep H) (remaining key c) t fun r _ => r = .ok (integerReply m) := by
  have hsecond : second.toInt = 10 ^ 9 := by decide
  have hmilli : millisecond.toInt = 10 ^ 6 := by decide
  cases c with
  | expire | setex =>
    rw [Expiring.unit, hsecond] at hd hfits
    refine (ends_liveAtom ha).bind fun found u ⟨hfound, hu⟩ => ?_
    subst hfound
    have huntil : timeUntil u.store.now a.expiresAt = m * 10 ^ 9 := by
      rw [hd, hu.now, timeUntil_add _ (by omega) hfits]
    simp only [if_neg hne]
    change (.ok (integerReply (if timeUntil u.store.now a.expiresAt ≤ 0 then -2
      else wholeSeconds (timeUntil u.store.now a.expiresAt).toNat)) : Outcome) = _
    have hnat : (m * 10 ^ 9).toNat = m.toNat * 10 ^ 9 := by omega
    rw [huntil, if_neg (by omega), hnat, wholeSeconds_mul, Int.toNat_of_nonneg hm.le]
  | pexpire | psetex =>
    rw [Expiring.unit, hmilli] at hd hfits
    refine ((ends_liveAtom ha).bind fun found u ⟨hfound, hu⟩ => ?_ :
      Ends _ (pttl [key]) t fun r _ => r = integerReply m).bind
      fun r u hr => congrArg Except.ok hr
    subst hfound
    have huntil : timeUntil u.store.now a.expiresAt = m * 10 ^ 6 := by
      rw [hd, hu.now, timeUntil_add _ (by omega) hfits]
    simp only [if_neg hne]
    change integerReply (if (timeUntil u.store.now a.expiresAt).tdiv (10 ^ 6) ≤ 0 then -2
      else (timeUntil u.store.now a.expiresAt).tdiv (10 ^ 6)) = _
    rw [huntil, Int.mul_tdiv_cancel _ (by decide), if_neg (by omega)]

end

/-- **The key takes in a deadline** with an expression: if the resident atom has the same content, it is live and
has the deadline, and else the expression is no tombstone and the new entry is not evicted at once. -/
def Server.TakesDeadline (s : Server (World Ref H) H) (key : Str) (e : Expr Ref H) (d : Time) : Prop :=
  if s.store.repeats e key d then ∃ a, s.live key = some a ∧ a.expiresAt = d
  else s.store.retains e key d = true ∧ e ≠ .eConst .vNull

omit [Floats] [Spaces] [Printing] [Unicode] [Runtime] in
theorem liveIn_append_iff_takesDeadline (hs : s.store.Inv) (hl : s.store.cache.Limited) (key : Str)
    (e : Expr Ref H) {d : Time} (hd : s.store.now ≤ d) :
    (∃ a, liveIn (s.store.append e key d).2 key = some a ∧ a.expiresAt = d) ↔ s.TakesDeadline key e d := by
  unfold Server.TakesDeadline
  rw [liveIn_append hs hl.balanced]
  split_ifs with hrep hkept
  · rfl
  · exact iff_of_true ⟨_, rfl, rfl⟩ ⟨hkept.1, hkept.2.2⟩
  · exact iff_of_false (by simp) fun h => hkept ⟨h.1, .inr hd, h.2⟩

/-- If the time to live can be represented, the key is live with exactly that deadline, and has at most that time
left; if not, the command is refused and the key is as it was. -/
def ExpiresExactly (s : Server (World Ref H) H) (key n text : Str) (m : ℤ) (c : Expiring) : Prop :=
  Ends (Server.step (shardedBackend H)) (timed key n text c) s fun r t =>
    (m * c.unit.toInt < 2 ^ 63 → (∃ a, t.live key = some a ∧ a.expiresAt = s.store.now + m * c.unit.toInt) ∧
      Ends (Server.step (shardedBackend H)) (remaining key c) t
        fun r _ => ∃ left, 0 ≤ left ∧ left ≤ m ∧ r = .ok (integerReply left)) ∧
    (2 ^ 63 ≤ m * c.unit.toInt → ¬ Accepted r ∧ t.live key = s.live key)

omit [Floats] [Spaces] [Printing] [Unicode] [Runtime] in
theorem toInt_mul_of_fits {m unit : Int64} (hpos : 0 ≤ m.toInt * unit.toInt) (hfits : m.toInt * unit.toInt < 2 ^ 63) :
    (m * unit).toInt = m.toInt * unit.toInt := by
  have hmul : m * unit = .ofInt (m.toInt * unit.toInt) := by
    rw [Int64.ofInt_mul, Int64.ofInt_toInt, Int64.ofInt_toInt]
  rw [hmul, toInt_ofInt_iff]
  exact ⟨by omega, hfits⟩

/-- **Times to live.** After the zero time, a positive number is handled exactly if and only if it amounts to less
than 2⁶³ nanoseconds and the key takes in the deadline with what the command writes. -/
theorem expiresExactly_iff (hs : s.Reachable) (hnow : zeroTime ≤ s.store.now) {a : CausalAtom Ref H}
    (ha : s.live key = some a) {n : Str} {m : Int64} (hn : parseInt n = some m) (hm : 0 < m) (text : Str)
    (c : Expiring) : ExpiresExactly s key n text m.toInt c ↔ m.toInt * c.unit.toInt < 2 ^ 63 ∧
      s.TakesDeadline key (c.written s text a) (s.store.now + m.toInt * c.unit.toInt) := by
  obtain ⟨haccepted, hclock, hlive⟩ := ends_timed ha hn hm text c
  have hpos : 0 < m.toInt := Int64.lt_iff_toInt_lt.1 hm
  have hunit : 0 < c.unit.toInt := by cases c <;> decide
  have hprod : 0 < m.toInt * c.unit.toInt := Int.mul_pos hpos hunit
  have hlater : s.store.now < s.store.now + m.toInt * c.unit.toInt := lt_add_of_pos_right _ hprod
  unfold ExpiresExactly Ends
  beta_reduce
  by_cases hfits : m.toInt * c.unit.toInt < 2 ^ 63
  · have htakes := liveIn_append_iff_takesDeadline hs.inv hs.limited key (c.written s text a) hlater.le
    rw [deadline, toInt_mul_of_fits hprod.le hfits] at hlive
    rw [← htakes, ← hlive]
    constructor
    · exact fun h => ⟨hfits, (h.1 hfits).1⟩
    · rintro ⟨-, b, hb, hdead⟩
      refine ⟨fun _ => ⟨⟨b, hb, hdead⟩, ?_⟩, fun hnot => absurd hfits (not_lt.2 hnot)⟩
      have hne : b.expiresAt ≠ zeroTime := hdead ▸ (hnow.trans_lt hlater).ne'
      have hleft := ends_remaining (c := c) hb hpos (by rw [hdead, hclock]) hne hfits
      exact ⟨_, hpos.le, le_rfl, hleft⟩
  · exact iff_of_false (fun h => (h.2 (not_lt.1 hfits)).1 haccepted) fun h => hfits h.1

end

section Instances

open Plain

def briefKey : Server (World Ref Str) Str :=
  ((Server.new (.init 0 0) 0).handle (shardedBackend Str) 9 [str "SETEX", str "n", str "1", str "5"]).2

theorem briefKey_reachable : briefKey.Reachable := (Server.reachable_new 0 0).command 9 _

theorem hasDeadline_briefKey : HasDeadline briefKey (str "n") := by
  have hlive : ((briefKey.live (str "n")).all fun a => a.expiresAt = zeroTime) = false := by decide +kernel
  cases ha : briefKey.live (str "n") with
  | none => simp [ha] at hlive
  | some a => exact ⟨a, ha, by simpa [ha] using hlive⟩

/-- `INCR` makes the key permanent. -/
theorem incr_drops_deadline : briefKey.Reachable ∧ HasDeadline briefKey (str "n") ∧
    ¬ KeepsDeadline briefKey (.counter .incr) (str "n") [] := by
  refine ⟨briefKey_reachable, hasDeadline_briefKey, fun h => ?_⟩
  obtain ⟨a, ha, hne⟩ := hasDeadline_briefKey
  have hafter : ((afterExtended briefKey (.counter .incr) [str "n"]).live (str "n")).all
      (fun b => b.expiresAt = zeroTime) = true := by decide +kernel
  obtain ⟨b, hb, hdead⟩ := h (by decide +kernel) a ha
  rw [hb, Option.all_some, decide_eq_true_iff] at hafter
  exact hne (hdead.symm.trans hafter)

theorem keepsDeadline_iff_refused : HasDeadline briefKey (str "n") ∧
    KeepsDeadline briefKey (.push .left) (str "n") [[]] := by
  refine ⟨hasDeadline_briefKey, (keepsDeadline_iff briefKey_reachable hasDeadline_briefKey rfl [[]]).2 ?_⟩
  have hnothing : (Update.expr briefKey (briefKey.effect (str "n") (.push .left) [[]])).isNone := by decide +kernel
  intro cs v hput
  rw [hput] at hnothing
  cases hnothing

/-- More seconds than 64 bits have nanoseconds. -/
def centuries : Str := str "9223372037"

/-- The command is accepted, the deadline is in the past and the key is gone. -/
theorem expire_overflows : briefKey.Reachable ∧ (briefKey.live (str "n")).isSome ∧
    parseInt centuries = some 9223372037 ∧
    ¬ ExpiresExactly briefKey (str "n") centuries [] 9223372037 .expire := by
  have hlive : (briefKey.live (str "n")).isSome := by decide +kernel
  refine ⟨briefKey_reachable, hlive, by decide +kernel, fun h => ?_⟩
  have hgone : ((timed (str "n") centuries [] .expire).run (Server.step (shardedBackend Str)) briefKey).2.live
      (str "n") = none := Option.isNone_iff_eq_none.1 (by decide +kernel)
  rw [← (h.2 (by decide +kernel)).2, hgone] at hlive
  cases hlive

theorem expiresExactly_iff_short : (briefKey.live (str "n")).isSome ∧
    ExpiresExactly briefKey (str "n") (str "9") [] (9 : Int64).toInt .setex := by
  have hlive : (briefKey.live (str "n")).isSome := by decide +kernel
  obtain ⟨a, ha⟩ := Option.isSome_iff_exists.1 hlive
  refine ⟨hlive, (expiresExactly_iff briefKey_reachable (by decide +kernel) ha (n := str "9") (by decide +kernel)
    (by decide) [] .setex).2 ⟨by decide +kernel, ?_⟩⟩
  have hwritten : Expiring.written briefKey [] a .setex = .eConst (briefKey.constant (.vString [])) := rfl
  unfold Server.TakesDeadline
  rw [hwritten]
  rw [if_neg (by decide +kernel)]
  exact ⟨by decide +kernel, by decide +kernel⟩

end Instances

end Wavicle.Resp3
