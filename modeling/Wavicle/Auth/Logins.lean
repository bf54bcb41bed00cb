import Wavicle.Auth.AclFile

/-! # Logins

From the text of an ACL file to a login: a user has the password of the last rule that sets one. After
`nopass` there is none, and nobody can log in. -/

namespace Wavicle.Auth

open Lib

section

variable [Unicode] [Sha256]

def Rule.setsPassword : Rule → Bool
  | .reset | .nopass | .password _ => true
  | _ => false

omit [Unicode] in
theorem passSHA256_userOf {rules : List Rule} (h : (userOf rules).passSHA256 ≠ noDigest) :
    ∃ pw, lastWhere Rule.setsPassword rules = some (.password pw) ∧
      (userOf rules).passSHA256 = hashPass pw := by
  induction rules using List.reverseRecOn with
  | nil => exact absurd rfl h
  | append_singleton rules r ih =>
    rw [userOf_concat] at h ⊢
    rw [lastWhere_concat]
    cases r with
    | reset => exact absurd rfl h
    | nopass => exact absurd rfl h
    | password pw => exact ⟨pw, rfl, rfl⟩
    | _ => exact ih h

theorem rules_of_lookup [Spaces] {path content name : Str} {a : ACL} {u : User}
    (h : loadACLFile path content = .ok a) (hu : a.users.lookup name = some u) :
    ∃ text ∈ (scanLines (64 * 1024) content).1, ∃ rules,
      parseRules (trimSpace text) = .ok (name, rules) ∧ userOf rules = u := by
  obtain ⟨text, htext, hline⟩ := (loadACLFile_sound h).2 name u hu
  unfold parseACLLine at hline
  cases hrules : parseRules (trimSpace text) with
  | error err =>
    rw [hrules] at hline
    cases hline
  | ok r =>
    rw [hrules] at hline
    obtain ⟨rfl, rfl⟩ := Prod.mk.inj (Except.ok.inj hline)
    exact ⟨text, htext, r.2, hrules, rfl⟩

/-- **Only passwords of the file log in**, if no password has the digest zero: the user has a line that ends
with the user on and with that password. -/
theorem login_from_file [Spaces] {path content : Str} {a : ACL} (h : loadACLFile path content = .ok a)
    {name password : Str} (hzero : hashPass password ≠ noDigest)
    (hlogin : a.authenticate name password = true) :
    ∃ text ∈ (scanLines (64 * 1024) content).1, ∃ rules pw,
      parseRules (trimSpace text) = .ok (name, rules) ∧ lastWhere Rule.switches rules = some .on ∧
        lastWhere Rule.setsPassword rules = some (.password pw) ∧ hashPass pw = hashPass password := by
  unfold ACL.authenticate at hlogin
  cases hu : a.users.lookup name with
  | none => simp [hu] at hlogin
  | some u =>
    simp only [hu, Bool.and_eq_true, decide_eq_true_eq] at hlogin
    obtain ⟨text, htext, rules, hrules, rfl⟩ := rules_of_lookup h hu
    obtain ⟨pw, hlast, hpw⟩ := passSHA256_userOf (hlogin.2.trans_ne hzero)
    exact ⟨text, htext, rules, pw, hrules, (on_userOf rules).1 hlogin.1, hlast, hpw.symm.trans hlogin.2⟩

/-- **Nobody else may do anything**: a name without a line is refused all commands. -/
theorem strangers_refused [Spaces] {path content name : Str} {a : ACL}
    (h : loadACLFile path content = .ok a)
    (hname : ∀ text ∈ (scanLines (64 * 1024) content).1, ∀ rules,
      parseRules (trimSpace text) ≠ .ok (name, rules)) (cmd key : Str) :
    a.authorize name cmd key = some (str "NOAUTH unknown user") := by
  have hnone : a.users.lookup name = none := by
    refine Option.eq_none_iff_forall_ne_some.2 fun u hu => ?_
    obtain ⟨text, htext, rules, hrules, -⟩ := rules_of_lookup h hu
    exact hname text htext rules hrules
  simp [ACL.authorize, (loadACLFile_sound h).1, hnone]

end

section Instances

local instance fileTables : Unicode := ⟨id, id⟩
local instance fileDigests : Sha256 := ⟨id⟩
local instance fileSpaces : Spaces := ⟨id⟩

def bobFile : Str := str "user bob on >x >y"

theorem loaded_bob : loadACLFile (str "f") bobFile =
    .ok (gateFor (str "bob") (userOf [.on, .password (str "x"), .password (str "y")])) := by rfl

theorem login_from_file_bob : ∃ a, loadACLFile (str "f") bobFile = .ok a ∧
    a.authenticate (str "bob") (str "y") = true ∧
    ∃ text ∈ (scanLines (64 * 1024) bobFile).1, ∃ rules pw,
      parseRules (trimSpace text) = .ok (str "bob", rules) ∧ lastWhere Rule.switches rules = some .on ∧
        lastWhere Rule.setsPassword rules = some (.password pw) ∧ hashPass pw = hashPass (str "y") :=
  ⟨_, loaded_bob, by rfl, login_from_file loaded_bob (by decide) (by rfl)⟩

theorem strangers_refused_eve : ∃ a, loadACLFile (str "f") bobFile = .ok a ∧
    a.authorize (str "eve") (str "GET") (str "k") = some (str "NOAUTH unknown user") := by
  refine ⟨_, loaded_bob, strangers_refused loaded_bob (fun text htext rules h => ?_) _ _⟩
  have hlines : (scanLines (64 * 1024) bobFile).1 = [bobFile] := by rfl
  have hbob : parseRules bobFile = .ok (str "bob", [.on, .password (str "x"), .password (str "y")]) := by rfl
  rw [hlines] at htext
  obtain rfl := List.mem_singleton.1 htext
  have hname : str "bob" = str "eve" := congrArg Prod.fst (Except.ok.inj (hbob.symm.trans h))
  exact absurd hname (by decide)

end Instances

end Wavicle.Auth
