import Wavicle.Storage.Postgres

/-! # Paths and cells

`PostgresStore` uses the first three parts of a path, as the names of a table, a row and a column. So `t:1:c` and
`t:1:c:x` are one cell. What the server then takes as one cell is up to it: it folds the case of an identifier,
and compares an `id` as a value of the column's type.

* `Schema`: the tables of a server, with the types and the defaults of their columns, and `Contents`: their rows.
* `Schema.sql`: what the two statements of `PostgresStore` do with the rows. An upsert of a row that is not there
  makes one, in which the other columns have their defaults.
* `LeavesAlone`: a write to one path never changes what is read from another.
* `leavesAlone_iff`: which two paths are that far apart. -/

namespace Wavicle.Storage

open Lib Wavicle.Core

/-! ### Tables -/

/-- The tables of a server: `τ` are the tables, `ρ` the keys of the rows and `κ` the columns. -/
structure Schema (τ ρ κ ι : Type) where
  /-- the table of that name, under the spelling rules of the server -/
  table : Str → Except Str τ
  column : τ → Str → Except Str κ
  /-- the `id` as a value of the type of the key -/
  key : τ → Str → Except Str ρ
  /-- the column with the keys, and the text of a key in it -/
  idColumn : τ → κ
  keyText : τ → ρ → Str
  /-- a value in the type of the column, as it is read back; nothing is `NULL` -/
  input : τ → κ → Option (Value ι) → Except Str (Option Str)
  /-- what a new row has in the column; `CURRENT_TIMESTAMP` depends on the time -/
  default : Time → τ → κ → Option Str

/-- The rows of the tables, and the clock of the server. -/
structure Contents (τ ρ κ : Type) where
  now : Time
  rows : τ → ρ → Option (κ → Option Str)

namespace Schema

variable {τ ρ κ ι : Type} [DecidableEq τ] [DecidableEq ρ] [DecidableEq κ] (S : Schema τ ρ κ ι)

/-- The row that an `INSERT` makes for a key, but for the column that it names. -/
def newRow (now : Time) (t : τ) (r : ρ) (k : κ) : Option Str :=
  if k = S.idColumn t then some (S.keyText t r) else S.default now t k

/-- What the names in a statement stand for. -/
def resolve (table id column : Str) : Except Str (τ × ρ × κ) := do
  let t ← S.table table
  let k ← S.column t column
  let r ← S.key t id
  pure (t, r, k)

/-- The contents after an upsert that has set a cell. -/
def put (db : Contents τ ρ κ) (t : τ) (r : ρ) (k : κ) (text : Option Str) : Contents τ ρ κ :=
  { db with rows := Function.update db.rows t (Function.update (db.rows t) r
      (some (Function.update ((db.rows t r).getD (S.newRow db.now t r)) k text))) }

/-- The two statements of `PostgresStore`. A column that is named twice is an error, so that the ids cannot be
written. -/
def sql : Sql (Contents τ ρ κ) ι where
  upsert db table id column v :=
    match S.resolve table id column with
    | .error msg => .error msg
    | .ok (t, r, k) =>
      if k = S.idColumn t then .error (str "column \"id\" specified more than once")
      else match S.input t k v with
        | .error msg => .error msg
        | .ok text => .ok (S.put db t r k text)
  select db table id column :=
    match S.resolve table id column with
    | .error _ => none
    | .ok (t, r, k) => (db.rows t r).bind fun row => row k

variable {S} {db db' : Contents τ ρ κ} {table id column : Str} {t : τ} {r : ρ} {k : κ}

theorem upsert_eq_ok {v : Option (Value ι)} (h : S.sql.upsert db table id column v = .ok db') :
    ∃ t r k text, S.resolve table id column = .ok (t, r, k) ∧ k ≠ S.idColumn t ∧ S.input t k v = .ok text ∧
      db' = S.put db t r k text := by
  unfold sql at h
  dsimp only at h
  split at h
  · cases h
  · rename_i t r k hresolve
    split_ifs at h with hid
    split at h
    · cases h
    · rename_i text hinput
      exact ⟨t, r, k, text, hresolve, hid, hinput, (Except.ok.inj h).symm⟩

theorem upsert_of_input (hresolve : S.resolve table id column = .ok (t, r, k)) (hid : k ≠ S.idColumn t)
    {v : Option (Value ι)} {text : Option Str} (hinput : S.input t k v = .ok text) :
    S.sql.upsert db table id column v = .ok (S.put db t r k text) := by
  simp only [sql, hresolve, if_neg hid, hinput]

theorem select_of_resolve (hresolve : S.resolve table id column = .ok (t, r, k)) :
    S.sql.select db table id column = (db.rows t r).bind fun row => row k := by
  simp only [sql, hresolve]

/-- What a cell has after another one has been set: in its row, the other columns may get their defaults. -/
theorem rows_put {text : Option Str} (t' : τ) (r' : ρ) (k' : κ) :
    (((S.put db t r k text).rows t' r').bind fun row => row k') =
      if t' = t ∧ r' = r then if k' = k then text else ((db.rows t r).getD (S.newRow db.now t r)) k'
      else (db.rows t' r').bind fun row => row k' := by
  unfold put
  dsimp only
  by_cases ht : t' = t
  · subst ht
    by_cases hr : r' = r
    · subst hr
      rw [if_pos ⟨rfl, rfl⟩, Function.update_self, Function.update_self, Option.bind_some, Function.update_apply]
    · rw [if_neg fun h => hr h.2, Function.update_self, Function.update_of_ne hr]
  · rw [if_neg fun h => ht h.1, Function.update_of_ne ht]

end Schema

/-! ### Cells -/

section

variable {δ ι H : Type} [RuneClasses]

namespace PostgresStore

/-- The table, the id and the column of a path that passes the checks of `AppendAtom`. -/
def cell (path : Str) : Option (Str × Str × Str) :=
  match path.splitOn 58 with
  | table :: id :: column :: _ =>
    if isValidIdentifier table ∧ isValidIdentifier column then some (table, id, column) else none
  | _ => none

variable {c : Str × Str × Str}

theorem cell_eq_some {path : Str} : cell path = some c ↔
    ∃ rest, path.splitOn 58 = c.1 :: c.2.1 :: c.2.2 :: rest ∧
      isValidIdentifier c.1 = true ∧ isValidIdentifier c.2.2 = true := by
  obtain ⟨table, id, column⟩ := c
  unfold cell
  generalize path.splitOn 58 = parts
  split
  · rename_i table' id' column' rest
    split_ifs with hvalid
    · simp only [Option.some.injEq, Prod.mk.injEq, List.cons.injEq]
      constructor
      · rintro ⟨rfl, rfl, rfl⟩
        exact ⟨rest, ⟨rfl, rfl, rfl, rfl⟩, hvalid⟩
      · rintro ⟨-, ⟨rfl, rfl, rfl, -⟩, -⟩
        exact ⟨rfl, rfl, rfl⟩
    · simp only [false_iff]
      rintro ⟨rest', h, h'⟩
      simp only [List.cons.injEq] at h
      obtain ⟨rfl, -, rfl, -⟩ := h
      exact hvalid h'
  · rename_i hparts
    simp only [reduceCtorEq, false_iff]
    rintro ⟨rest, h, -⟩
    exact hparts _ _ _ _ h

theorem appendAtom_eq_ok {S : Sql δ ι} {db db' : δ} {expr : Expr ι H} {path : Str}
    (h : appendAtom S db expr path = .ok db') : ∃ c v, cell path = some c ∧ expr = .eConst v ∧
      S.upsert db c.1 c.2.1 c.2.2 (nullable v) = .ok db' := by
  unfold appendAtom at h
  split at h
  · rename_i table id column rest hparts
    split_ifs at h with htable hcolumn
    split at h
    · rename_i v
      split at h
      · rename_i db'' hupsert
        obtain rfl := Except.ok.inj h
        exact ⟨(table, id, column), v,
          cell_eq_some.2 ⟨rest, hparts, by simpa using htable, by simpa using hcolumn⟩, rfl, hupsert⟩
      · cases h
    · cases h
  · cases h

theorem getCurrent_eq (S : Sql δ ι) (db : δ) (path : Str) :
    getCurrent S db path = (cell path).bind fun c => S.select db c.1 c.2.1 c.2.2 := by
  unfold getCurrent
  cases hcell : cell path with
  | some c =>
    obtain ⟨rest, hparts, htable, hcolumn⟩ := cell_eq_some.1 hcell
    simp [hparts, htable, hcolumn]
  | none =>
    split
    · rename_i table id column rest hparts
      refine if_pos (by_contra fun hvalid => ?_)
      have hsome : cell path = some (table, id, column) :=
        cell_eq_some.2 ⟨rest, hparts, by simpa using hvalid⟩
      rw [hcell] at hsome
      cases hsome
    · rfl

/-- A write to `p` never changes what is read from `q`. -/
def LeavesAlone (H : Type) (S : Sql δ ι) (p q : Str) : Prop :=
  ∀ db (expr : Expr ι H) db', appendAtom S db expr p = .ok db' →
    getCurrent S db' q = getCurrent S db q

/-! ### Writes to other paths -/

section

variable {τ ρ κ : Type} [DecidableEq τ] [DecidableEq ρ] [DecidableEq κ] {S : Schema τ ρ κ ι} {p q : Str}

/-- The path passes the checks and names a cell of the server, which is not in the column of the ids. -/
def Names (S : Schema τ ρ κ ι) (path : Str) (t : τ) (r : ρ) (k : κ) : Prop :=
  ∃ c, cell path = some c ∧ S.resolve c.1 c.2.1 c.2.2 = .ok (t, r, k) ∧ k ≠ S.idColumn t

/-- The column takes two constants that are read back differently. -/
def Varies (S : Schema τ ρ κ ι) (t : τ) (k : κ) : Prop :=
  ∃ v v' text text', S.input t k (nullable v) = .ok text ∧ S.input t k (nullable v') = .ok text' ∧ text ≠ text'

variable {t t' : τ} {r r' : ρ} {k k' : κ}

theorem Names.getCurrent_eq (hq : Names S q t r k) (db : Contents τ ρ κ) :
    getCurrent S.sql db q = (db.rows t r).bind fun row => row k := by
  obtain ⟨c, hcell, hresolve, -⟩ := hq
  rw [PostgresStore.getCurrent_eq, hcell, Option.bind_some, Schema.select_of_resolve hresolve]

theorem Names.appendAtom_eq_ok (hp : Names S p t r k) {db db' : Contents τ ρ κ} {expr : Expr ι H}
    (h : appendAtom S.sql db expr p = .ok db') : ∃ text, db' = S.put db t r k text := by
  obtain ⟨c, hcell, hresolve, -⟩ := hp
  obtain ⟨c', v, hcell', -, hupsert⟩ := PostgresStore.appendAtom_eq_ok h
  obtain rfl := Option.some.inj (hcell.symm.trans hcell')
  obtain ⟨t', r', k', text, hresolve', -, -, rfl⟩ := Schema.upsert_eq_ok hupsert
  obtain ⟨rfl, rfl, rfl⟩ : t = t' ∧ r = r' ∧ k = k' := by simpa using hresolve.symm.trans hresolve'
  exact ⟨text, rfl⟩

theorem Names.appendAtom_of_input (hp : Names S p t r k) {v : Value ι} {text : Option Str}
    (hinput : S.input t k (nullable v) = .ok text) (db : Contents τ ρ κ) :
    appendAtom S.sql db (.eConst v : Expr ι H) p = .ok (S.put db t r k text) := by
  obtain ⟨c, hcell, hresolve, hid⟩ := hp
  obtain ⟨rest, hparts, htable, hcolumn⟩ := cell_eq_some.1 hcell
  unfold appendAtom
  simp only [hparts, htable, hcolumn, Bool.not_true, Bool.false_eq_true, if_false,
    Schema.upsert_of_input hresolve hid hinput]

/-- **A write to a path leaves another one alone exactly if they are in different rows, or in different columns
and the column of the other one has no default.** -/
theorem leavesAlone_iff (H : Type) (hp : Names S p t r k) (hvaries : Varies S t k) (hq : Names S q t' r' k') :
    LeavesAlone H S.sql p q ↔ (t' = t ∧ r' = r → k' ≠ k ∧ ∀ now, S.default now t' k' = none) := by
  obtain ⟨v, v', text, text', hinput, hinput', hne⟩ := hvaries
  constructor
  · rintro halone ⟨rfl, rfl⟩
    -- a database without rows, so that the write makes the row
    let empty (now : Time) : Contents τ ρ κ := ⟨now, fun _ _ => none⟩
    have hread : ∀ {v : Value ι} {text : Option Str}, S.input t' k (nullable v) = .ok text → ∀ now,
        (if k' = k then text else S.newRow now t' r' k') = none := by
      intro v text hinput now
      have h := halone (empty now) _ _ (hp.appendAtom_of_input hinput (empty now))
      rw [hq.getCurrent_eq, hq.getCurrent_eq, Schema.rows_put, if_pos ⟨rfl, rfl⟩] at h
      exact h
    have hcolumn : k' ≠ k := by
      rintro rfl
      have h := hread hinput 0
      have h' := hread hinput' 0
      rw [if_pos rfl] at h h'
      exact hne (h.trans h'.symm)
    refine ⟨hcolumn, fun now => ?_⟩
    have h := hread hinput now
    obtain ⟨-, -, -, hid⟩ := hq
    rwa [if_neg hcolumn, Schema.newRow, if_neg hid] at h
  · intro hapart db expr db' happend
    obtain ⟨written, rfl⟩ := hp.appendAtom_eq_ok happend
    rw [hq.getCurrent_eq, hq.getCurrent_eq, Schema.rows_put]
    split_ifs with hrow hcolumn
    · exact absurd hcolumn (hapart hrow).1
    · obtain ⟨rfl, rfl⟩ := hrow
      cases hold : db.rows t' r' with
      | some row => rfl
      | none =>
        obtain ⟨-, -, -, hid⟩ := hq
        rw [Option.getD_none, Schema.newRow, if_neg hid]
        exact (hapart ⟨rfl, rfl⟩).2 db.now
    · rfl

end

end PostgresStore

end

/-! ### The table of users -/

section Instances

local instance cellPrinting : Printing := ⟨fun _ => []⟩

local instance cellRunes : RuneClasses := ⟨fun _ => false⟩

/-- Names that are not quoted are taken in lower case. -/
def lowerName (s : Str) : Str := s.map fun b => if 65 ≤ b ∧ b ≤ 90 then b + 32 else b

/-- The table `users` of `init.sql`: texts, and a time that is the current one by default. What a time may look
like is a parameter. -/
def usersTable (readTime : Str → Except Str Str) (printTime : Time → Str) : Schema Unit Str Str Unit where
  table name := if lowerName name = str "users" then .ok () else .error (str "relation does not exist")
  column _ name := if lowerName name ∈ [str "id", str "name", str "email", str "created_at"] then .ok (lowerName name)
    else .error (str "column does not exist")
  key _ id := .ok id
  idColumn _ := str "id"
  keyText _ id := id
  input _ column v :=
    match v.bind valueText with
    | none => .ok none
    | some text => if column = str "created_at" then (readTime text).map some else .ok (some text)
  default now _ column := if column = str "created_at" then some (printTime now) else none

def plainUsers : Schema Unit Str Str Unit := usersTable .ok decimalInt

/-- The table without rows, and with the row of a user who has a name. -/
def noUsers : Contents Unit Str Str := ⟨7, fun _ _ => none⟩

def withAnn : Contents Unit Str Str := plainUsers.put noUsers () (str "1") (str "name") (some (str "ann"))

/-- `SET users:1:name ann` and then `HSET users:1:name nick bob`: the field is written to the cell of
the plain key. -/
theorem field_overwrites_key :
    PostgresStore.appendAtom plainUsers.sql noUsers (.eConst (.vString (str "ann")) : Expr Unit Str)
      (str "users:1:name") = .ok withAnn ∧
    ∃ db, PostgresStore.appendAtom plainUsers.sql withAnn (.eConst (.vString (str "bob")) : Expr Unit Str)
      (str "users:1:name" ++ str ":" ++ str "nick") = .ok db ∧
    PostgresStore.getCurrent plainUsers.sql withAnn (str "users:1:name") = some (str "ann") ∧
    PostgresStore.getCurrent plainUsers.sql db (str "users:1:name") = some (str "bob") := by
  refine ⟨rfl, plainUsers.put withAnn () (str "1") (str "name") (some (str "bob")), rfl, ?_, ?_⟩ <;> decide +kernel

/-- The write of the name makes the row, and with it the time of its creation. -/
example : PostgresStore.getCurrent plainUsers.sql noUsers (str "users:1:created_at") = none ∧
    PostgresStore.getCurrent plainUsers.sql withAnn (str "users:1:created_at") = some (str "7") := by
  decide +kernel

theorem leavesAlone_iff_email :
    PostgresStore.LeavesAlone Str plainUsers.sql (str "users:1:name") (str "users:1:email") ↔
      (() = () ∧ str "1" = str "1" → str "email" ≠ str "name" ∧
        ∀ now, plainUsers.default now () (str "email") = none) := by
  refine PostgresStore.leavesAlone_iff Str ⟨(str "users", str "1", str "name"), by decide +kernel, rfl, by decide⟩
    ⟨.vNull, .vString (str "ann"), none, some (str "ann"), rfl, rfl, by decide⟩
    ⟨(str "users", str "1", str "email"), by decide +kernel, rfl, by decide⟩

end Instances

end Wavicle.Storage
