import Wavicle.Lib.Strings
import Wavicle.Lib.GoMap

/-! # Users and permissions

The gate of `auth/acl.go`: who may log in, and which command on which key a user may run. SHA-256
is a parameter. -/

namespace Wavicle.Auth

open Lib

/-- The digests of `crypto/sha256`, of which nothing is assumed. -/
class Sha256 where
  sum256 : Str → Str

/-- One principal. An empty command set means all commands, an empty pattern list all keys. -/
structure User where
  passSHA256 : Str
  commands : List Str
  keyPatterns : List Str
  admin : Bool
  on : Bool

/-- The users of a server; it is not enabled where no password is set. -/
structure ACL where
  users : GoMap Str User
  enabled : Bool

variable [Unicode] [Sha256]

def hashPass (pw : Str) : Str := Sha256.sum256 pw

def newDisabled : ACL := ⟨∅, false⟩

def ACL.addUser (a : ACL) (name password : Str) (commands keyPatterns : List Str) (admin : Bool) :
    ACL :=
  ⟨a.users.insert name ⟨hashPass password, commands.map toUpper, keyPatterns, admin, true⟩, true⟩

/-- `NewSinglePassword`: one shared password with full access. -/
def newSinglePassword (password : Str) : ACL :=
  if password = [] then newDisabled
  else ACL.addUser ⟨∅, true⟩ (str "default") password [] [] true

/-- `Authenticate`: unknown users and users switched off always fail. -/
def ACL.authenticate (a : ACL) (name password : Str) : Bool :=
  match a.users.lookup name with
  | none => false
  | some u => u.on && u.passSHA256 = hashPass password

def matchPattern (pat key : Str) : Bool :=
  if pat = str "*" ∨ pat = [] then true
  else if hasSuffix pat (str "*") then hasPrefix key (trimSuffix pat (str "*"))
  else pat = key

/-- `Authorize`: the message of the refusal, or `none` when the command is allowed. -/
def ACL.authorize (a : ACL) (name cmd key : Str) : Option Str :=
  if !a.enabled then none
  else match a.users.lookup name with
  | none => some (str "NOAUTH unknown user")
  | some u =>
    if !u.on then some (str "NOAUTH unknown user")
    else if u.admin then none
    else
      let uc := toUpper cmd
      if u.commands ≠ [] ∧ uc ∉ u.commands ∧ str "ALL" ∉ u.commands then
        some (str "NOPERM command " ++ uc ++ str " denied for user " ++ name)
      else if key ≠ [] ∧ u.keyPatterns ≠ [] then
        if u.keyPatterns.any (matchPattern · key) then none
        else some (str "NOPERM key " ++ quote key ++ str " denied for user " ++ name)
      else none

end Wavicle.Auth
