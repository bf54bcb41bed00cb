import Wavicle.Core.Types
import Wavicle.Lib.Strings

/-! # The primary database

`storage/postgres.go`: a path `table:id:column` names a cell of a table. The SQL server and its driver
are a parameter; what is known of them is that a cell has the value that was last written to it. -/

namespace Wavicle.Storage

open Lib Wavicle.Core

/-- The `unicode` tables, beyond ASCII. -/
class RuneClasses where
  /-- every rune is a letter, a digit or `_`, and the first one is no digit -/
  isIdentifier : Str → Bool

def isASCIILetter (b : UInt8) : Bool := 65 ≤ b ∧ b ≤ 90 ∨ 97 ≤ b ∧ b ≤ 122

def isASCIIDigit (b : UInt8) : Bool := 48 ≤ b ∧ b ≤ 57

def isValidIdentifier [RuneClasses] (s : Str) : Bool :=
  if s.length = 0 ∨ s.length > 63 then false
  else if isASCII s then
    (s.head?.all fun b => isASCIILetter b || b = 95) &&
      s.all fun b => isASCIILetter b || isASCIIDigit b || b = 95
  else RuneClasses.isIdentifier s

/-- An SQL server with contents in `δ`, as the driver shows it. -/
structure Sql (δ ι : Type) where
  /-- `INSERT INTO table (id, column) VALUES ($1, $2) ON CONFLICT (id) DO UPDATE SET column = $2`; no
  value is `NULL` -/
  upsert : δ → (table id column : Str) → Option (Value ι) → Except Str δ
  /-- `SELECT column FROM table WHERE id = $1`, scanned into a string -/
  select : δ → (table id column : Str) → Option Str

/-- The text of a value in the database; `NULL` has none. -/
def valueText {ι : Type} [Printing] : Value ι → Option Str
  | .vNull => none
  | v => some v.sprint

/-- What the clients of the server write: a text, or the null that stands for a deletion. -/
def isPlainText {ι H : Type} : Expr ι H → Bool
  | .eConst (.vString _) | .eConst .vNull => true
  | _ => false

/-- **A column of a text type**: a text that has been written is read back as it is, and `NULL` is read as nothing. A
column of another type may read a normal form back, as `INTEGER` does for `007`. -/
structure Sql.TextColumn {δ ι : Type} (S : Sql δ ι) (table column : Str) : Prop where
  text : ∀ db db' id s, S.upsert db table id column (some (.vString s)) = .ok db' →
    S.select db' table id column = some s
  null : ∀ db db' id, S.upsert db table id column none = .ok db' → S.select db' table id column = none

/-- The path names a cell of a column of a text type. -/
def Sql.TextPath {δ ι : Type} (S : Sql δ ι) (path : Str) : Prop :=
  ∀ table id column more, path.splitOn 58 = table :: id :: column :: more → S.TextColumn table column

namespace PostgresStore

variable {δ ι H : Type} [RuneClasses]

/-- What is sent for a value: a null constant is an SQL `NULL`. -/
def nullable : Value ι → Option (Value ι)
  | .vNull => none
  | v => some v

/-- `PostgresStore.AppendAtom`: the contents after the write, or the error. -/
def appendAtom (S : Sql δ ι) (db : δ) (expr : Expr ι H) (path : Str) : Except Str δ :=
  match path.splitOn 58 with
  | table :: id :: column :: _ =>
    if !isValidIdentifier table then .error (str "invalid table name in path: " ++ table)
    else if !isValidIdentifier column then .error (str "invalid column name in path: " ++ column)
    else match expr with
      | .eConst v =>
        match S.upsert db table id column (nullable v) with
        | .ok db' => .ok db'
        | .error err => .error (str "postgres upsert: " ++ err)
      | _ => .error (str "only EConst expressions are supported for Postgres writes in Phase 1")
  | _ => .error (str "invalid path format for Postgres: " ++ path ++
      str " (expected table:id:column)")

/-- `PostgresStore.GetCurrent`: the text of the cell that the path names. -/
def getCurrent (S : Sql δ ι) (db : δ) (path : Str) : Option Str :=
  match path.splitOn 58 with
  | table :: id :: column :: _ =>
    if !isValidIdentifier table ∨ !isValidIdentifier column then none
    else S.select db table id column
  | _ => none

theorem getCurrent_appendAtom [Printing] {S : Sql δ ι} {path : Str} (hS : S.TextPath path) {db db' : δ}
    {expr : Expr ι H} (htext : isPlainText expr = true) (h : appendAtom S db expr path = .ok db') :
    getCurrent S db' path = expr.constValue.bind valueText := by
  unfold appendAtom at h
  unfold getCurrent
  split at h
  · rename_i table id column more hparts
    have hcolumn := hS table id column more hparts
    split_ifs at h with htable hvalid
    rw [if_neg (by simp_all)]
    match expr, htext with
    | .eConst (.vString s), _ =>
      dsimp only [nullable] at h
      split at h
      · rename_i db'' hupsert
        obtain rfl := Except.ok.inj h
        exact hcolumn.text _ _ _ _ hupsert
      · cases h
    | .eConst .vNull, _ =>
      dsimp only [nullable] at h
      split at h
      · rename_i db'' hupsert
        obtain rfl := Except.ok.inj h
        exact hcolumn.null _ _ _ hupsert
      · cases h
  · cases h

end PostgresStore

end Wavicle.Storage
