import Wavicle.Resp3.Connection

/-! # The command allowlist

A user of the ACL may have a set of commands. The loop asks `Authorize` about a command once for each of its
keys, so a command without keys is never asked about. -/

namespace Wavicle.Resp3

open Lib Auth

/-! ### Upper case -/

theorem upperByte_spec (b : UInt8) (h : b < 128) :
    upperByte b < 128 ∧ upperByte (upperByte b) = upperByte b := by
  by_cases hlow : 97 ≤ b ∧ b ≤ 122
  · have hupper : upperByte b = b - 32 := if_pos hlow
    simp only [UInt8.lt_iff_toNat_lt, UInt8.le_iff_toNat_le, UInt8.reduceToNat] at h hlow
    have hsub : (b - 32).toNat = b.toNat - 32 := UInt8.toNat_sub_of_le _ _ (by
      simp only [UInt8.le_iff_toNat_le, UInt8.reduceToNat]
      omega)
    rw [hupper]
    refine ⟨?_, if_neg ?_⟩
    · simp only [UInt8.lt_iff_toNat_lt, UInt8.reduceToNat]
      omega
    · simp only [UInt8.le_iff_toNat_le, UInt8.reduceToNat]
      omega
  · have hupper : upperByte b = b := if_neg hlow
    rw [hupper]
    exact ⟨h, hupper⟩

section

variable [Unicode]

/-- The Unicode tables map no upper-case letter to another letter. -/
def UpperStable : Prop := ∀ s, isASCII s = false → toUpper (Unicode.mapToUpper s) = Unicode.mapToUpper s

theorem toUpper_toUpper (hstable : UpperStable) (s : Str) : toUpper (toUpper s) = toUpper s := by
  cases hs : isASCII s with
  | false =>
    have hupper : toUpper s = Unicode.mapToUpper s := by simp [toUpper, hs]
    rw [hupper, hstable s hs]
  | true =>
    have hbytes : ∀ b ∈ s, upperByte b < 128 ∧ upperByte (upperByte b) = upperByte b :=
      fun b hb => upperByte_spec b (of_decide_eq_true (List.all_eq_true.1 hs b hb))
    have hupper : toUpper s = s.map upperByte := by simp [toUpper, hs]
    have hascii : isASCII (s.map upperByte) = true := by
      rw [isASCII, List.all_map, List.all_eq_true]
      exact fun b hb => decide_eq_true (hbytes b hb).1
    rw [hupper, toUpper, if_pos hascii, List.map_map]
    exact List.map_congr_left fun b hb => (hbytes b hb).2

/-! ### Commands without keys -/

/-- A command that is checked without a key. -/
def Keyless (args : List Str) : Prop := args.length < 2 ∨ toUpper (args.headD []) ∈ keylessCommands

theorem allKeys_eq_nil_iff (args : List Str) : allKeys args = [] ↔ Keyless args := by
  match args with
  | [] => simp [allKeys, Keyless]
  | [name] => simp [allKeys, Keyless]
  | name :: key :: rest =>
    have hother : everyOther (key :: rest) ≠ [] := by cases rest <;> simp [everyOther]
    simp only [allKeys, Keyless, List.headD_cons, List.length_cons]
    split_ifs with hkeyless <;> simp [hkeyless, hother]

/-! ### What reaches the test -/

/-- The commands that one pass of the loop hands to `HandleCommand` if the ACL has nothing against
them, on a connection that has authenticated. -/
def candidates (c : Conn) (args : List Str) : List (List Str) :=
  match args with
  | [] => []
  | name :: _ =>
    let cmd := toUpper name
    if cmd = str "EXEC" then if c.inMulti then c.queue else []
    else if cmd = str "MULTI" ∨ cmd = str "DISCARD" ∨ c.inMulti ∨ cmd = str "AUTH" then []
    else [args]

variable {σ : Type} (srv : Config) (handler : σ → List Str → Except Str Str × σ)

variable {c : Conn}

theorem mem_events_execQueue {q : List Str} : ∀ (s : σ) (qs : List (List Str)),
    .invoked q ∈ (execQueue srv handler c s qs).2.2 ↔
      q ∈ qs ∧ denial srv c (q.headD []) q = none
  | _, [] => by simp [execQueue]
  | s, q' :: qs => by
    unfold execQueue
    cases hdenial : denial srv c (q'.headD []) q' with
    | some err =>
      simp only [mem_events_execQueue s qs, List.mem_cons]
      constructor
      · exact fun h => ⟨Or.inr h.1, h.2⟩
      · rintro ⟨rfl | hq, hnone⟩
        · exact absurd (hnone.symm.trans hdenial) (by simp)
        · exact ⟨hq, hnone⟩
    | none =>
      simp only [List.mem_cons, Event.invoked.injEq, mem_events_execQueue _ qs]
      constructor
      · rintro (rfl | h)
        · exact ⟨Or.inl rfl, hdenial⟩
        · exact ⟨Or.inr h.1, h.2⟩
      · rintro ⟨rfl | hq, hnone⟩
        · exact Or.inl rfl
        · exact Or.inr ⟨hq, hnone⟩

theorem denial_toUpper (hstable : UpperStable) (c : Conn) (cmd : Str) (args : List Str) :
    denial srv c (toUpper cmd) args = denial srv c cmd args := by
  unfold denial
  simp only [ACL.authorize, toUpper_toUpper hstable]

variable [Sha256]

theorem not_invoked_of_framed (s : σ) {name : Str} (rest : List Str) {q : List Str}
    (hexec : toUpper name ≠ str "EXEC")
    (hframed : toUpper name = str "MULTI" ∨ toUpper name = str "DISCARD" ∨ c.inMulti = true ∨
      toUpper name = str "AUTH") :
    .invoked q ∉ (onCommand srv handler c s (name :: rest)).events := by
  simp only [onCommand, onAuth, if_neg hexec]
  split_ifs with hm hmulti hd hmulti' hin ha hnoauth
  · simp
  · simp
  · simp
  · simp
  · cases denial srv c name (name :: rest) <;> simp
  · cases credentials (name :: rest) with
    | none => simp
    | some login =>
      simp only
      split_ifs <;> simp
  · simp
  · simp [hm, hd, hin, ha] at hframed

/-- **What a pass of the loop invokes**: the candidates that the ACL does not refuse. -/
theorem invoked_onCommand (hstable : UpperStable) (hauth : c.authenticated = true) (s : σ)
    (args q : List Str) : .invoked q ∈ (onCommand srv handler c s args).events ↔
      q ∈ candidates c args ∧ denial srv c (q.headD []) q = none := by
  cases args with
  | nil => simp [onCommand, candidates]
  | cons name rest =>
    by_cases hexec : toUpper name = str "EXEC"
    · have hm : str "EXEC" ≠ str "MULTI" := by decide
      have hd : str "EXEC" ≠ str "DISCARD" := by decide
      simp only [onCommand, candidates, hexec, if_neg hm, if_neg hd, if_pos]
      cases c.inMulti with
      | false => simp
      | true =>
        by_cases hqueue : c.queue = []
        · simp [hqueue]
        · simpa [hqueue] using mem_events_execQueue srv handler s c.queue
    · by_cases hframed : toUpper name = str "MULTI" ∨ toUpper name = str "DISCARD" ∨
          c.inMulti = true ∨ toUpper name = str "AUTH"
      · simp [candidates, hexec, hframed, not_invoked_of_framed srv handler s rest hexec hframed]
      · have hcandidates : candidates c (name :: rest) = [name :: rest] := by
          simp [candidates, hexec, hframed]
        simp only [not_or] at hframed
        obtain ⟨hm, hd, hin, ha⟩ := hframed
        have hdirect : (onCommand srv handler c s (name :: rest)).events =
            if denial srv c name (name :: rest) = none then [.invoked (name :: rest)] else [] := by
          simp only [onCommand, hexec, hm, hd, hin, ha, hauth, if_false, denial_toUpper srv hstable]
          cases denial srv c name (name :: rest) <;> simp
        rw [hdirect, hcandidates, List.mem_singleton]
        constructor
        · split_ifs with hdenial
          · intro h
            obtain rfl : q = name :: rest := by simpa using h
            exact ⟨rfl, hdenial⟩
          · simp
        · rintro ⟨rfl, hdenial⟩
          rw [List.headD_cons] at hdenial
          simp [hdenial]

/-! ### Enforcement -/

/-- The connection has authenticated as the user `u`, who has a set of commands and is no admin. -/
def Restricted (srv : Config) (c : Conn) (u : User) : Prop :=
  c.authenticated = true ∧ u.admin = false ∧ u.commands ≠ [] ∧
    ∃ acl, srv.acl = some acl ∧ acl.enabled = true ∧ acl.users.lookup c.username = some u

/-- The allowlist of the user has the command. -/
def Listed (u : User) (args : List Str) : Prop :=
  toUpper (args.headD []) ∈ u.commands ∨ str "ALL" ∈ u.commands

omit [Sha256] in
theorem Restricted.listed {u : User} (h : Restricted srv c u) {args : List Str}
    (hkeys : allKeys args ≠ []) (hnone : denial srv c (args.headD []) args = none) : Listed u args := by
  obtain ⟨hauth, hadmin, hcommands, acl, hacl, henabled, huser⟩ := h
  obtain ⟨k, hk⟩ := List.exists_mem_of_ne_nil _ hkeys
  simp only [denial, hacl, henabled, hauth, and_self, if_true] at hnone
  have hk' := List.findSome?_eq_none_iff.1 hnone k hk
  by_contra hlisted
  rw [Listed, not_or] at hlisted
  unfold ACL.authorize at hk'
  simp only [huser, henabled, hadmin] at hk'
  rw [if_neg (by simp)] at hk'
  split_ifs at hk' <;> simp_all

/-- **One pass of the loop**: a command that is not in the set of the user is invoked exactly if it
has no keys. -/
theorem Restricted.listed_iff (hstable : UpperStable) {u : User} (h : Restricted srv c u) (s : σ)
    (args : List Str) : (∀ q, .invoked q ∈ (onCommand srv handler c s args).events → Listed u q) ↔
      ∀ q ∈ candidates c args, Keyless q → Listed u q := by
  constructor
  · intro hinvoked q hq hkeyless
    refine hinvoked q ((invoked_onCommand srv handler hstable h.1 s args q).2 ⟨hq, ?_⟩)
    rw [denial, (allKeys_eq_nil_iff q).2 hkeyless]
    cases srv.acl <;> simp
  · intro hcandidates q hq
    obtain ⟨hmem, hnone⟩ := (invoked_onCommand srv handler hstable h.1 s args q).1 hq
    by_cases hkeys : allKeys q = []
    · exact hcandidates q hmem ((allKeys_eq_nil_iff q).1 hkeys)
    · exact h.listed srv hkeys hnone

/-- While a connection has authenticated as a user with a set of commands, nothing is invoked that is
not in the set. -/
def AllowlistEnforced (s : σ) (cmds : List (List Str)) : Prop :=
  ∀ pre args post, cmds = pre ++ args :: post → ∀ u,
    Restricted srv (serve srv handler (.init srv) s pre).conn u →
      ∀ q, .invoked q ∈ (onCommand srv handler (serve srv handler (.init srv) s pre).conn
        (serve srv handler (.init srv) s pre).server args).events → Listed u q

/-- **The command allowlist.** It is enforced on a connection exactly if each command without keys
that the connection sends, or runs with `EXEC`, while it has authenticated as a user with a set of
commands is in that set. -/
theorem allowlist_enforced_iff (hstable : UpperStable) (s : σ) (cmds : List (List Str)) :
    AllowlistEnforced srv handler s cmds ↔ ∀ pre args post, cmds = pre ++ args :: post → ∀ u,
        Restricted srv (serve srv handler (.init srv) s pre).conn u →
          ∀ q ∈ candidates (serve srv handler (.init srv) s pre).conn args, Keyless q → Listed u q := by
  constructor
  · intro h pre args post hcmds u hu
    exact (hu.listed_iff srv handler hstable _ args).1 (h pre args post hcmds u hu)
  · intro h pre args post hcmds u hu
    exact (hu.listed_iff srv handler hstable _ args).2 (h pre args post hcmds u hu)

end

section Instances

local instance plainTables : Unicode := ⟨id, id⟩

local instance openDigests : Sha256 := ⟨id⟩

theorem plainTables_upperStable : UpperStable := by
  intro s hs
  have hmap : Unicode.mapToUpper s = s := rfl
  simp [hmap, toUpper, hs]

def readerServer : Config :=
  ⟨[], some (ACL.addUser newDisabled (str "reader") (str "pw") [str "GET"] [] false)⟩

/-- A `HandleCommand` that does nothing. -/
def ignoreCommand (s : Unit) (_ : List Str) : Except Str Str × Unit := (.ok [], s)

def readerLogin : List Str := [str "AUTH", str "reader", str "pw"]

def readerUser : User := ⟨str "pw", [str "GET"], [], false, true⟩

theorem reader_restricted :
    Restricted readerServer (serve readerServer ignoreCommand (.init readerServer) ()
      [readerLogin]).conn readerUser :=
  ⟨by decide, rfl, by decide, _, rfl, rfl, by rfl⟩

/-- A user who may only run `GET` runs `FLUSHDB`. -/
theorem flushdb_passes_allowlist :
    ¬ AllowlistEnforced readerServer ignoreCommand () [readerLogin, [str "FLUSHDB"]] := by
  intro h
  have hevents : (onCommand readerServer ignoreCommand (serve readerServer ignoreCommand
      (.init readerServer) () [readerLogin]).conn () [str "FLUSHDB"]).events =
        [.invoked [str "FLUSHDB"]] := by rfl
  have hlisted := h [readerLogin] [str "FLUSHDB"] [] rfl _ reader_restricted [str "FLUSHDB"]
    (hevents ▸ List.mem_singleton_self _)
  exact absurd hlisted (by unfold Listed; decide)

theorem allowlist_enforced_iff_get_set : AllowlistEnforced readerServer ignoreCommand ()
      [readerLogin, [str "GET", str "k"], [str "SET", str "k", str "v"]] := by
  refine (allowlist_enforced_iff readerServer ignoreCommand plainTables_upperStable () _).2 ?_
  intro pre args post hcmds u hu q hq hkeyless
  match pre, hcmds with
  | [], _ => exact absurd hu.1 (by decide)
  | [_], h =>
    simp only [List.cons_append, List.nil_append, List.cons.injEq] at h
    obtain ⟨rfl, rfl, -⟩ := h
    obtain rfl := List.mem_singleton.1 hq
    exact absurd hkeyless (by unfold Keyless; decide)
  | [_, _], h =>
    simp only [List.cons_append, List.nil_append, List.cons.injEq] at h
    obtain ⟨rfl, rfl, rfl, -⟩ := h
    obtain rfl := List.mem_singleton.1 hq
    exact absurd hkeyless (by unfold Keyless; decide)
  | _ :: _ :: _ :: pre, h => simp at h

end Instances

end Wavicle.Resp3
