import Wavicle.Auth.Acl
import Wavicle.Lib.Bufio
import Wavicle.Lib.Utf8

/-! # ACL files

`auth/aclfile.go`: a line of the file defines a user by rules, which are applied from left to right.

* `parseACLLine`, `userOf`: a line, and the user that its rules make.
* `RevokedLast`, `Effective`: what the rules say last of a command, and when a user may do anything at all.
* `revoked_denied_iff`: when a command that was revoked is denied. -/

namespace Wavicle.Auth

open Lib

/-! ### Lines -/

/-- A word of a line of an ACL file. -/
inductive Rule where
  | on
  | off
  | reset
  | nopass
  | password (pw : Str)
  /-- `+@all` -/
  | allowAll
  /-- `-@all` -/
  | revokeAll
  | allow (cmd : Str)
  | revoke (cmd : Str)
  | pattern (pat : Str)
  deriving DecidableEq

section

variable [Unicode] [Sha256]

/-- The command of `+CMD` or `-CMD`. -/
def commandOf (sign t : Str) : Except Str Str :=
  let cmd := toUpper (trimPrefix t sign)
  if cmd = [] ∨ hasPrefix cmd (str "@") then
    .error (str "unsupported selector " ++ quote t ++ str " (only " ++ sign ++ str "CMD and " ++ sign ++
      str "@all)")
  else .ok cmd

/-- The `switch` over a token. -/
def parseToken (t : Str) : Except Str Rule :=
  if t = str "on" then .ok .on
  else if t = str "off" then .ok .off
  else if t = str "reset" then .ok .reset
  else if t = str "nopass" then .ok .nopass
  else if hasPrefix t (str ">") then
    if trimPrefix t (str ">") = [] then .error (str "empty password token \x60>\x60")
    else .ok (.password (trimPrefix t (str ">")))
  else if t = str "+@all" then .ok .allowAll
  else if t = str "-@all" then .ok .revokeAll
  else if hasPrefix t (str "+") then (commandOf (str "+") t).map .allow
  else if hasPrefix t (str "-") then (commandOf (str "-") t).map .revoke
  else if hasPrefix t (str "~") then .ok (.pattern (trimPrefix t (str "~")))
  else .error (str "unknown token " ++ quote t)

def noDigest : Str := List.replicate 32 0

def newUser : User := ⟨noDigest, [], [], false, false⟩

/-- What a rule does to the user. The local variable `on` is the field here. -/
def Rule.apply (u : User) : Rule → User
  | .on => { u with on := true }
  | .off => { u with on := false }
  | .reset => newUser
  | .nopass => { u with passSHA256 := noDigest }
  | .password pw => { u with passSHA256 := hashPass pw }
  | .allowAll => { u with admin := true }
  | .revokeAll => { u with admin := false, commands := [] }
  | .allow cmd => { u with commands := u.commands.insert cmd }
  | .revoke cmd => { u with commands := u.commands.filter (· ≠ cmd) }
  | .pattern pat => { u with keyPatterns := u.keyPatterns ++ [pat] }

def parseRules (line : Str) : Except Str (Str × List Rule) :=
  match fields line with
  | first :: name :: toks =>
    if first ≠ str "user" then .error (str "must start with \x60user <name>\x60")
    else if name = [] then .error (str "empty user name")
    else (toks.mapM parseToken).map fun rules => (name, rules)
  | _ => .error (str "must start with \x60user <name>\x60")

variable (c : Str) (rules : List Rule)

def userOf : User := rules.foldl Rule.apply newUser

def parseACLLine (line : Str) : Except Str (Str × User) :=
  (parseRules line).map fun r => (r.1, userOf r.2)

/-! ### Files -/

/-- The loop over the lines, from the line number `n` on. -/
def loadLines [Spaces] (path : Str) : ℕ → List Str → ACL → Except Str ACL
  | _, [], a => .ok a
  | n, text :: lines, a =>
    let line := trimSpace text
    if line = [] ∨ hasPrefix line (str "#") then loadLines path (n + 1) lines a
    else match parseACLLine line with
      | .error err =>
        .error (str "acl file " ++ path ++ str ":" ++ decimal n ++ str ": " ++ err)
      | .ok (name, u) => loadLines path (n + 1) lines ⟨a.users.insert name u, true⟩

/-- `LoadACLFile`, for a file that can be opened: without users it fails -/
def loadACLFile [Spaces] (path content : Str) : Except Str ACL := do
  let (lines, tooLong) := scanLines (64 * 1024) content
  let a ← loadLines path 1 lines newDisabled
  if tooLong then .error (str "acl file: bufio.Scanner: token too long")
  else if !a.enabled then .error (str "acl file " ++ path ++ str ": no users defined")
  else .ok a

/-- A line of the file defines the user. -/
def FromLine [Spaces] (lines : List Str) (name : Str) (u : User) : Prop :=
  ∃ text ∈ lines, parseACLLine (trimSpace text) = .ok (name, u)

theorem fromLine_of_loadLines [Spaces] {path : Str} {all : List Str} : ∀ {n : ℕ} {lines : List Str}
    {a b : ACL}, lines ⊆ all → (∀ name u, a.users.lookup name = some u → FromLine all name u) →
    loadLines path n lines a = .ok b → ∀ name u, b.users.lookup name = some u → FromLine all name u
  | _, [], a, b, _, ha, h => by
    obtain rfl := Except.ok.inj h
    exact ha
  | n, text :: lines, a, b, hsub, ha, h => by
    obtain ⟨htext, hlines⟩ := List.cons_subset.1 hsub
    unfold loadLines at h
    dsimp only at h
    split_ifs at h
    · exact fromLine_of_loadLines hlines ha h
    · cases hline : parseACLLine (trimSpace text) with
      | error err =>
        rw [hline] at h
        cases h
      | ok r =>
        rw [hline] at h
        refine fromLine_of_loadLines hlines (fun name u hu => ?_) h
        rw [GoMap.lookup_insert] at hu
        split_ifs at hu with hname
        · obtain rfl := Option.some.inj hu
          exact ⟨text, htext, hname ▸ hline⟩
        · exact ha name u hu

/-- **An ACL file is loaded line by line**: the gate is enabled, and its users are those of lines. -/
theorem loadACLFile_sound [Spaces] {path content : Str} {a : ACL}
    (h : loadACLFile path content = .ok a) : a.enabled = true ∧ ∀ name u,
      a.users.lookup name = some u → FromLine (scanLines (64 * 1024) content).1 name u := by
  unfold loadACLFile at h
  cases hload : loadLines path 1 (scanLines (64 * 1024) content).1 newDisabled with
  | error err =>
    simp only [hload] at h
    cases h
  | ok b =>
    simp only [hload, bind, Except.bind] at h
    split_ifs at h with _ henabled
    obtain rfl := Except.ok.inj h
    refine ⟨by simpa using henabled, fromLine_of_loadLines (List.Subset.refl _) ?_ hload⟩
    intro name u hu
    cases (AList.lookup_empty name).symm.trans hu

/-! ### The last rule that matters -/

def lastWhere {α : Type} (p : α → Bool) (l : List α) : Option α := (l.filter p).getLast?

omit [Unicode] [Sha256] in
theorem lastWhere_concat {α : Type} (p : α → Bool) (l : List α) (x : α) :
    lastWhere p (l ++ [x]) = if p x then some x else lastWhere p l := by
  unfold lastWhere
  rw [List.filter_append]
  split_ifs with hx
  · rw [List.filter_cons_of_pos hx, List.filter_nil, List.getLast?_concat]
  · rw [List.filter_cons_of_neg hx, List.filter_nil, List.append_nil]

omit [Unicode] [Sha256] in
theorem lastWhere_of_imp {α : Type} {p q : α → Bool} (hqp : ∀ x, q x = true → p x = true) {l : List α}
    {x : α} (h : lastWhere p l = some x) (hx : q x = true) : lastWhere q l = some x := by
  induction l using List.reverseRecOn with
  | nil => cases h
  | append_singleton l y ih =>
    rw [lastWhere_concat] at h ⊢
    by_cases hy : p y = true
    · rw [if_pos hy] at h
      obtain rfl := Option.some.inj h
      rw [if_pos hx]
    · rw [if_neg hy] at h
      rw [if_neg fun hqy => hy (hqp y hqy)]
      exact ih h

/-- The rules that put `c` into the set of commands or take it out. -/
def Rule.concerns : Rule → Bool
  | .reset | .revokeAll => true
  | .allow d | .revoke d => d = c
  | _ => false

/-- The rules that make an administrator of the user, or no longer. -/
def Rule.concernsAll : Rule → Bool
  | .reset | .allowAll | .revokeAll => true
  | _ => false

def Rule.switches : Rule → Bool
  | .reset | .on | .off => true
  | _ => false

omit [Unicode] in
theorem userOf_concat (r : Rule) :
    userOf (rules ++ [r]) = r.apply (userOf rules) := List.foldl_append ..

section

omit [Unicode]

theorem mem_commands_userOf :
    c ∈ (userOf rules).commands ↔ lastWhere (Rule.concerns c) rules = some (.allow c) := by
  induction rules using List.reverseRecOn with
  | nil => exact iff_of_false List.not_mem_nil (by rintro ⟨⟩)
  | append_singleton rules r ih =>
    rw [userOf_concat, lastWhere_concat]
    cases r with
    | reset => simp [Rule.apply, Rule.concerns, newUser]
    | revokeAll => simp [Rule.apply, Rule.concerns]
    | allow d =>
      by_cases hd : d = c
      · simp [Rule.apply, Rule.concerns, hd]
      · simp [Rule.apply, Rule.concerns, hd, Ne.symm hd, ih]
    | revoke d =>
      by_cases hd : d = c
      · simp [Rule.apply, Rule.concerns, hd]
      · simp [Rule.apply, Rule.concerns, hd, Ne.symm hd, ih]
    | _ => exact ih

theorem admin_userOf :
    (userOf rules).admin = true ↔ lastWhere Rule.concernsAll rules = some .allowAll := by
  induction rules using List.reverseRecOn with
  | nil => exact iff_of_false Bool.false_ne_true (by rintro ⟨⟩)
  | append_singleton rules r ih =>
    rw [userOf_concat, lastWhere_concat]
    cases r with
    | reset => simp [Rule.apply, Rule.concernsAll, newUser]
    | allowAll => simp [Rule.apply, Rule.concernsAll]
    | revokeAll => simp [Rule.apply, Rule.concernsAll]
    | _ => exact ih

theorem on_userOf :
    (userOf rules).on = true ↔ lastWhere Rule.switches rules = some .on := by
  induction rules using List.reverseRecOn with
  | nil => exact iff_of_false Bool.false_ne_true (by rintro ⟨⟩)
  | append_singleton rules r ih =>
    rw [userOf_concat, lastWhere_concat]
    cases r with
    | reset => simp [Rule.apply, Rule.switches, newUser]
    | on => simp [Rule.apply, Rule.switches]
    | off => simp [Rule.apply, Rule.switches]
    | _ => exact ih

end

/-! ### Who is denied what -/

/-- `Authorize` refuses the command on every key. -/
def ACL.Denies (a : ACL) (name cmd : Str) : Prop := ∀ key, (a.authorize name cmd key).isSome = true

omit [Sha256] in
theorem denies_iff {a : ACL} (ha : a.enabled = true) {name : Str} {u : User}
    (hu : a.users.lookup name = some u) (cmd : Str) :
    a.Denies name cmd ↔ u.on = false ∨ u.admin = false ∧ u.commands ≠ [] ∧
      toUpper cmd ∉ u.commands ∧ str "ALL" ∉ u.commands := by
  unfold ACL.Denies ACL.authorize
  simp only [ha, hu, Bool.not_true, Bool.false_eq_true, if_false]
  cases u.on with
  | false => simp
  | true =>
    cases u.admin with
    | true => simp
    | false =>
      by_cases hcmd : u.commands ≠ [] ∧ toUpper cmd ∉ u.commands ∧ str "ALL" ∉ u.commands
      · simp [hcmd]
      · -- the empty key is refused to nobody
        simp only [if_neg hcmd, Bool.not_true, Bool.false_eq_true, if_false, true_and]
        refine iff_of_false (fun h => ?_) fun h => hcmd (h.resolve_left Bool.noConfusion)
        simpa using h []

/-- The rules that mention the command `c`, or all commands. -/
def Rule.mentions : Rule → Bool
  | .reset | .allowAll | .revokeAll => true
  | .allow d | .revoke d => d = c
  | _ => false

def Rule.revokes : Rule → Bool
  | .reset | .revokeAll | .revoke _ => true
  | _ => false

/-- The last rule on the command revokes it. -/
def RevokedLast : Prop :=
  ∃ r, lastWhere (Rule.mentions c) rules = some r ∧ r.revokes = true

omit [Unicode] in
theorem RevokedLast.not_mem {c : Str} {rules : List Rule} (h : RevokedLast c rules) :
    c ∉ (userOf rules).commands := by
  obtain ⟨r, hr, hrevokes⟩ := h
  have hmention : r.mentions c = true := by
    have hmem := List.mem_of_getLast? hr
    exact (List.mem_filter.1 hmem).2
  have hconcern : r.concerns c = true := by
    cases r <;> first | exact absurd hrevokes Bool.false_ne_true | exact hmention
  have himp : ∀ r : Rule, r.concerns c = true → r.mentions c = true := by
    intro r hr
    cases r <;> first | rfl | exact hr
  rw [mem_commands_userOf, lastWhere_of_imp himp hr hconcern]
  rintro ⟨⟩
  exact Bool.false_ne_true hrevokes

/-- The revocation of a command is in force: the user is off, or is no administrator and has other
commands, but not `ALL`. -/
def Effective : Prop :=
  lastWhere Rule.switches rules ≠ some .on ∨
    lastWhere Rule.concernsAll rules ≠ some .allowAll ∧
      (∃ c, lastWhere (Rule.concerns c) rules = some (.allow c)) ∧
      lastWhere (Rule.concerns (str "ALL")) rules ≠ some (.allow (str "ALL"))

/-- **Revocation.** A command whose last mention in an accepted line is a revocation is denied on every
key exactly if the revocation is in force at the end of the line. -/
theorem revoked_denied_iff {line name : Str} {u : User} (h : parseACLLine line = .ok (name, u)) {a : ACL}
    (ha : a.enabled = true) (hu : a.users.lookup name = some u) (cmd : Str) :
    ∃ rules, parseRules line = .ok (name, rules) ∧
      (RevokedLast (toUpper cmd) rules → (a.Denies name cmd ↔ Effective rules)) := by
  unfold parseACLLine at h
  cases hrules : parseRules line with
  | error err =>
    rw [hrules] at h
    cases h
  | ok r =>
    rw [hrules] at h
    obtain ⟨rfl, rfl⟩ := Prod.mk.inj (Except.ok.inj h)
    refine ⟨r.2, rfl, fun hrev => ?_⟩
    have hsome : (userOf r.2).commands ≠ [] ↔
        ∃ c, lastWhere (Rule.concerns c) r.2 = some (.allow c) := by
      simp only [← mem_commands_userOf]
      exact ⟨List.exists_mem_of_ne_nil _, fun ⟨_, hc⟩ => List.ne_nil_of_mem hc⟩
    rw [denies_iff ha hu, Effective, hsome, ne_eq, ne_eq, ne_eq, ← mem_commands_userOf (str "ALL"),
      ← on_userOf, ← admin_userOf, Bool.not_eq_true, Bool.not_eq_true,
      and_iff_right hrev.not_mem]

end

section Instances

local instance lineTables : Unicode := ⟨id, id⟩
local instance lineDigests : Sha256 := ⟨id⟩

def gateFor (name : Str) (u : User) : ACL := ⟨(∅ : GoMap Str User).insert name u, true⟩

/-- `user bob on +GET -GET` may run all commands. -/
theorem revoked_get_allowed : ∃ u, parseACLLine (str "user bob on +GET -GET") = .ok (str "bob", u) ∧
    parseRules (str "user bob on +GET -GET") =
      .ok (str "bob", [.on, .allow (str "GET"), .revoke (str "GET")]) ∧
    RevokedLast (toUpper (str "GET")) [.on, .allow (str "GET"), .revoke (str "GET")] ∧
    (gateFor (str "bob") u).authorize (str "bob") (str "GET") (str "k") = none ∧
    ¬ (gateFor (str "bob") u).Denies (str "bob") (str "GET") := by
  refine ⟨userOf [.on, .allow (str "GET"), .revoke (str "GET")], by rfl, by rfl,
    ⟨.revoke (str "GET"), by decide, rfl⟩, by rfl, fun h => ?_⟩
  exact absurd (h (str "k")) (by decide)

theorem revoked_denied_iff_get : ∃ u, parseACLLine (str "user bob on +GET +SET -GET") = .ok (str "bob", u) ∧
    (gateFor (str "bob") u).enabled = true ∧
    ∃ rules, parseRules (str "user bob on +GET +SET -GET") = .ok (str "bob", rules) ∧
      (RevokedLast (toUpper (str "GET")) rules →
        ((gateFor (str "bob") u).Denies (str "bob") (str "GET") ↔ Effective rules)) :=
  ⟨userOf [.on, .allow (str "GET"), .allow (str "SET"), .revoke (str "GET")], by rfl, rfl,
    revoked_denied_iff (by rfl) rfl (by rfl) (str "GET")⟩

end Instances

end Wavicle.Auth
