import Wavicle.Lib.Substrings
import Wavicle.Replication.Applier

/-! # From rows to paths

`replication/postgres.go` and `replication/adapter.go`: a change of a row becomes a `ChangeEvent` with the paths
that it affects, made by the template of a `PathMapper` or from the id column. A row is a Go map, listed in the
order in which a `range` loop happens to visit it.

* `mapRow`, `buildInsertEvent`, `buildUpdateEvent`, `buildDeleteEvent`: the paths of an event.
* `Relation.cellPath`, `Row.read`: the path from which `PostgresStore.GetCurrent` reads a cell, and what it finds.
* `Announced`: the paths of all cells that a change of a row changes are in its event.
* `announced_iff`: when this is so. Without a `PathMapper` the path of the id column is never in an event, and the
  event of an `UPDATE` has no paths of the old row. -/

namespace Wavicle.Replication

open Lib Wavicle.Core Storage

abbrev Row := GoMap Str Cell

/-! ### Tuples -/

/-- `pglogrepl.TupleDataColumn` -/
structure TupleColumn where
  dataType : UInt8
  data : Str

def decodeInt (data : Str) : Int64 :=
  if data.length = 2 ∨ data.length = 4 ∨ data.length = 8 then
    .ofNat (data.foldl (fun n b => 256 * n + b.toNat) 0)
  else 0

/-- The `switch` over the kinds of columns; an unchanged TOAST value is left out. -/
def decodeColumn (col : TupleColumn) : Option Cell :=
  if col.dataType = 110 then some .null
  else if col.dataType = 117 then none
  else if col.dataType = 98 ∧ col.data.length ≤ 8 then some (.int (decodeInt col.data))
  else some (.text col.data)

/-- `decodeTupleColumns`, given the names of the columns -/
def decodeTupleColumns (names : List Str) (cols : List TupleColumn) : Row :=
  (names.zip cols).foldl (fun row c => match decodeColumn c.2 with
    | none => row
    | some cell => row.insert c.1 cell) ∅

/-! ### Paths -/

/-- `PathMapper`: the key of a row is made from the template, and has a path for each of the columns. -/
structure PathMapper where
  table : Str
  keyTemplate : Str
  columns : List Str

def idNames : List Str := [str "id", str "ID", str "Id"]

/-- `table:id`, for the first of the columns that the row has -/
def idKey (table : Str) (names : List Str) (row : Row) : Str :=
  match names.findSome? row.lookup with
  | some v => table ++ str ":" ++ v.sprint
  | none => []

/-- One turn of the loop over the columns in `expandTemplate`. -/
def expandColumn (out : Str) (e : Σ _ : Str, Cell) : Str :=
  replaceAll (replaceAll out (str "$\x7b" ++ e.1 ++ str "\x7d") e.2.sprint)
    (str "\x7b" ++ e.1 ++ str "\x7d") e.2.sprint

def PathMapper.expandTemplate (pm : PathMapper) (row : Row) : Str :=
  let uuids := idNames ++ [str "uuid", str "UUID"]
  if pm.keyTemplate = [] then idKey pm.table uuids row
  else
    let out := replaceAll pm.keyTemplate (str "$\x7btable\x7d") pm.table
    let out := replaceAll out (str "\x7btable\x7d") pm.table
    let out := row.entries.foldl expandColumn out
    if out = pm.table then idKey pm.table uuids row
    else if contains out (str "$\x7b") then idKey pm.table idNames row
    else out

def keyPath (key col : Str) : Str := key ++ str ":" ++ col

def PathMapper.mapRowToPaths (pm : PathMapper) (row : Row) : List Str :=
  if row.entries = [] then []
  else
    let key := pm.expandTemplate row
    if key = [] then [] else pm.columns.map (keyPath key)

/-- The text of the first id column that the loop of `autoPathMapping` meets. -/
def autoId (row : Row) : Str :=
  match row.entries.find? fun e => e.1 ∈ idNames with
  | some e => e.2.sprint
  | none => []

def autoPathMapping (table : Str) (row : Row) : List Str :=
  if autoId row = [] then []
  else (row.keys.filter (· ∉ idNames)).map (keyPath (table ++ str ":" ++ autoId row))

def shortTable (table : Str) : Str := (afterLast 46 table).getD table

def mapRow (mappers : List PathMapper) (table : Str) (row : Row) : List Str :=
  if row.entries = [] then []
  else match mappers.find? fun m => m.table = shortTable table with
    | some m => m.mapRowToPaths row
    | none => autoPathMapping (shortTable table) row

/-! ### Events -/

/-- `pglogrepl.RelationMessage`, as far as it is read -/
structure Relation where
  relNamespace : Str
  relationName : Str

def Relation.table (rel : Relation) : Str := rel.relNamespace ++ str "." ++ rel.relationName

def buildInsertEvent (mappers : List PathMapper) (rel : Relation) (cols : Row) (commitTime : Time) :
    ChangeEvent :=
  ⟨.insert, cols, mapRow mappers rel.table cols, commitTime⟩

/-- `buildUpdateEvent`; a tuple that was not sent is `none` -/
def buildUpdateEvent (mappers : List PathMapper) (rel : Relation) (oldCols newCols : Option Row)
    (commitTime : Time) : ChangeEvent :=
  ⟨.update, newCols.getD ∅, mapRow mappers rel.table ((newCols.or oldCols).getD ∅), commitTime⟩

def buildDeleteEvent (mappers : List PathMapper) (rel : Relation) (oldCols : Option Row)
    (commitTime : Time) : ChangeEvent :=
  ⟨.delete, ∅, mapRow mappers rel.table (oldCols.getD ∅), commitTime⟩

/-! ### What changes -/

/-- A change of a row, with the full tuples. -/
inductive RowChange where
  | insert (new : Row)
  | update (old new : Row)
  | delete (old : Row)

namespace RowChange

def before : RowChange → Option Row
  | .insert _ => none
  | .update old _ | .delete old => some old

def after : RowChange → Option Row
  | .insert new | .update _ new => some new
  | .delete _ => none

/-- The row whose paths the event has. -/
def mapped : RowChange → Row
  | .insert row | .update _ row | .delete row => row

def event (mappers : List PathMapper) (rel : Relation) (commitTime : Time) : RowChange → ChangeEvent
  | .insert new => buildInsertEvent mappers rel new commitTime
  | .update old new => buildUpdateEvent mappers rel (some old) (some new) commitTime
  | .delete old => buildDeleteEvent mappers rel (some old) commitTime

end RowChange

/-- The text of a column of a row; a `NULL` cannot be scanned into a string, and counts as none. -/
def Row.text (row : Row) (col : Str) : Option Str :=
  match row.lookup col with
  | none | some .null => none
  | some cell => some cell.sprint

/-- The id under which a row is found; an id with a colon is in no path. -/
def Row.keyOf (row : Row) : Option Str := (row.text (str "id")).filter fun id => 58 ∉ id

/-- What `SELECT col FROM … WHERE id = …` finds in this row. -/
def Row.read (row : Row) (id col : Str) : Option Str := if row.keyOf = some id then row.text col else none

/-- The path of a cell, `table:id:column`; `getCurrent_cellPath` says that it is read from there. -/
def Relation.cellPath (rel : Relation) (id col : Str) : Str := keyPath (keyPath rel.relationName id) col

/-- A name that `PostgresStore` takes; letters, digits and `_` are no separators. -/
def IsName [RuneClasses] (s : Str) : Prop := isValidIdentifier s = true ∧ 58 ∉ s ∧ 46 ∉ s

section

variable [RuneClasses] {mappers : List PathMapper} {rel : Relation} {row old new : Row} {id col : Str}

/-- `GetCurrent` reads a cell from its path. -/
theorem getCurrent_cellPath {δ ι : Type} (S : Sql δ ι) (db : δ) (hrel : IsName rel.relationName) (hid : 58 ∉ id)
    (hcol : IsName col) :
    PostgresStore.getCurrent S db (rel.cellPath id col) = S.select db rel.relationName id col := by
  have hpath : rel.cellPath id col = [58].intercalate [rel.relationName, id, col] := by
    simp [Relation.cellPath, keyPath, List.intercalate, str]
  have hparts : (rel.cellPath id col).splitOn 58 = [rel.relationName, id, col] := by
    rw [hpath]
    refine List.splitOn_intercalate _ ?_ (List.cons_ne_nil _ _)
    simp only [List.forall_mem_cons]
    exact ⟨hrel.2.1, hid, hcol.2.1, List.forall_mem_nil _⟩
  simp only [PostgresStore.getCurrent, hparts, hrel.1, hcol.1]
  simp

/-- Every cell whose value is changed has its path among the affected paths of the event. -/
def Announced (mappers : List PathMapper) (rel : Relation) (commitTime : Time) (c : RowChange) : Prop :=
  ∀ id col, IsName col → c.before.bind (·.read id col) ≠ c.after.bind (·.read id col) →
    rel.cellPath id col ∈ (c.event mappers rel commitTime).affectedPaths

/-! ### The paths of an event -/

omit [RuneClasses] in
theorem affectedPaths_event (mappers : List PathMapper) (rel : Relation) (commitTime : Time) (c : RowChange) :
    (c.event mappers rel commitTime).affectedPaths = mapRow mappers rel.table c.mapped := by
  cases c <;> rfl

theorem shortTable_table (hrel : IsName rel.relationName) : shortTable rel.table = rel.relationName := by
  have hafter : ∀ {s : Str}, 46 ∉ s → (rel.relNamespace ++ 46 :: s).reverse.takeWhile (· ≠ 46) = s.reverse := by
    intro s hs
    rw [List.reverse_append, List.reverse_cons, List.append_assoc, List.takeWhile_append_of_pos]
    · simp
    · intro b hb
      exact decide_eq_true fun heq => hs (heq ▸ List.mem_reverse.1 hb)
  have htable : rel.table = rel.relNamespace ++ 46 :: rel.relationName := by simp [Relation.table, str]
  have hmem : 46 ∈ rel.table := by simp [htable]
  rw [shortTable, afterLast, if_pos hmem, Option.getD_some, htable, hafter hrel.2.2, List.reverse_reverse]

section

omit [RuneClasses]

theorem keyOf_eq_some : row.keyOf = some id ↔ row.text (str "id") = some id ∧ 58 ∉ id := by
  rw [Row.keyOf, Option.filter_eq_some_iff, decide_eq_true_iff]

theorem entries_ne_nil (h : row.text col ≠ none) : row.entries ≠ [] := by
  intro hnil
  have hnone : row.lookup col = none := by
    cases hcell : row.lookup col with
    | none => rfl
    | some cell =>
      have hmem := GoMap.lookup_eq_some.1 hcell
      rw [hnil] at hmem
      cases hmem
  exact h (by rw [Row.text, hnone])

/-- A path has one colon after the table if the id and the column have none. -/
theorem cellPath_inj (rel : Relation) {id' col' : Str} (hid : 58 ∉ id) (hcol : 58 ∉ col)
    (h : rel.cellPath id' col' = rel.cellPath id col) : id' = id ∧ col' = col := by
  have htail : id' ++ 58 :: col' = id ++ 58 :: col := by
    simpa [Relation.cellPath, keyPath, str] using h
  have hcount := congrArg (List.count 58) htail
  rw [List.count_append, List.count_append, List.count_cons_self, List.count_cons_self,
    List.count_eq_zero.2 hid, List.count_eq_zero.2 hcol] at hcount
  exact append_cons_inj (List.count_eq_zero.1 (by omega)) hid htail

end

omit [RuneClasses] in
theorem mem_autoPathMapping (hid : 58 ∉ id) (hcol : 58 ∉ col) :
    rel.cellPath id col ∈ autoPathMapping rel.relationName row ↔
      col ∉ idNames ∧ (row.lookup col).isSome ∧ autoId row = id ∧ id ≠ [] := by
  unfold autoPathMapping
  split_ifs with hauto
  · refine iff_of_false List.not_mem_nil ?_
    rintro ⟨-, -, rfl, hne⟩
    exact hne hauto
  · have hkeys : ∀ {k : Str}, k ∈ row.keys ↔ (row.lookup k).isSome := by
      intro k
      rw [AList.lookup_isSome, AList.mem_keys]
    rw [List.mem_map]
    constructor
    · rintro ⟨col', hmem, hpath⟩
      obtain ⟨hkey, hname⟩ := List.mem_filter.1 hmem
      obtain ⟨rfl, rfl⟩ := cellPath_inj rel hid hcol hpath
      exact ⟨of_decide_eq_true hname, hkeys.1 hkey, rfl, hauto⟩
    · rintro ⟨hname, hkey, rfl, -⟩
      exact ⟨col, List.mem_filter.2 ⟨hkeys.2 hkey, decide_eq_true hname⟩, rfl⟩

/-! ### Tables without a mapper -/

section

variable (hrel : IsName rel.relationName) (hnone : ∀ m ∈ mappers, m.table ≠ rel.relationName)

include hrel hnone

theorem mem_mapRow_auto (hrow : row.entries ≠ []) (hid : 58 ∉ id) (hcol : 58 ∉ col) :
    rel.cellPath id col ∈ mapRow mappers rel.table row ↔
      col ∉ idNames ∧ (row.lookup col).isSome ∧ autoId row = id ∧ id ≠ [] := by
  have hfind : mappers.find? (fun m => m.table = rel.relationName) = none :=
    List.find?_eq_none.2 fun m hm => by simpa using hnone m hm
  unfold mapRow
  rw [if_neg hrow, shortTable_table hrel, hfind]
  exact mem_autoPathMapping hid hcol

/-- The path of the id column is in no event. -/
theorem idPath_not_mem (hid : 58 ∉ id) : rel.cellPath id (str "id") ∉ mapRow mappers rel.table row := by
  by_cases hrow : row.entries = []
  · simp [mapRow, hrow]
  · rw [mem_mapRow_auto hrel hnone hrow hid (by decide)]
    rintro ⟨hname, -⟩
    exact hname (.head _)

end

/-- Which changes announce all that they change, without a mapper: an update that does not change the id. Each of
the columns that it changes must be no id column, and the id that is found first must be that of the column
`id`. -/
def RowChange.KeepsId : RowChange → Prop
  | .insert new => new.keyOf = none
  | .delete old => old.keyOf = none
  | .update old new => old.keyOf = new.keyOf ∧ ∀ id, new.keyOf = some id → ∀ col, IsName col →
      old.text col ≠ new.text col → col ∉ idNames ∧ (new.lookup col).isSome ∧ autoId new = id ∧ id ≠ []

theorem isName_id : IsName (str "id") := ⟨by rfl, by decide, by decide⟩

omit [RuneClasses] in
theorem read_id (h : row.keyOf = some id) : row.read id (str "id") = some id := by
  rw [Row.read, if_pos h]
  exact (keyOf_eq_some.1 h).1

omit [RuneClasses] in
theorem read_eq_none (h : row.keyOf ≠ some id) : row.read id col = none := if_neg h

omit [RuneClasses] in
theorem read_of_keyOf_none (h : row.keyOf = none) : row.read id col = none :=
  read_eq_none fun hid => by cases h.symm.trans hid

omit [RuneClasses] in
/-- A row whose cell of the id cannot be read under any id has none. -/
theorem keyOf_eq_none (h : ∀ id, 58 ∉ id → row.read id (str "id") = none) : row.keyOf = none := by
  refine Option.eq_none_iff_forall_ne_some.2 fun id hid => ?_
  have hread := h id (keyOf_eq_some.1 hid).2
  rw [read_id hid] at hread
  cases hread

/-- The paths of a row that has an id. -/
theorem mem_mapRow_of_keyOf (hrel : IsName rel.relationName) (hnone : ∀ m ∈ mappers, m.table ≠ rel.relationName)
    (hid : row.keyOf = some id) (hcol : IsName col) : rel.cellPath id col ∈ mapRow mappers rel.table row ↔
      col ∉ idNames ∧ (row.lookup col).isSome ∧ autoId row = id ∧ id ≠ [] := by
  have htext := (keyOf_eq_some.1 hid).1
  exact mem_mapRow_auto hrel hnone (entries_ne_nil (htext ▸ Option.some_ne_none id)) (keyOf_eq_some.1 hid).2 hcol.2.1

theorem announced_auto_iff (hrel : IsName rel.relationName) (hnone : ∀ m ∈ mappers, m.table ≠ rel.relationName)
    (commitTime : Time) (c : RowChange) : Announced mappers rel commitTime c ↔ c.KeepsId := by
  -- the cell of the id cannot be announced, so that it must not change
  have hids : ∀ {id : Str}, 58 ∉ id → Announced mappers rel commitTime c →
      c.before.bind (·.read id (str "id")) = c.after.bind (·.read id (str "id")) := by
    intro id hid h
    by_contra hchanged
    have hmem := h id (str "id") isName_id hchanged
    rw [affectedPaths_event] at hmem
    exact idPath_not_mem hrel hnone hid hmem
  have hsame : ∀ {old new : Row} {id : Str}, (old.keyOf = some id → 58 ∉ id →
      old.read id (str "id") = new.read id (str "id")) → old.keyOf = some id → new.keyOf = some id := by
    intro old new id hread hold
    by_contra hnew
    have h := hread hold (keyOf_eq_some.1 hold).2
    rw [read_id hold, read_eq_none hnew] at h
    cases h
  cases c with
  | insert new =>
    refine ⟨fun h => ?_, fun h id col _ hchanged => absurd ?_ hchanged⟩
    · exact keyOf_eq_none fun id hid => (hids hid h).symm
    · exact (read_of_keyOf_none h).symm
  | delete old =>
    refine ⟨fun h => ?_, fun h id col _ hchanged => absurd ?_ hchanged⟩
    · exact keyOf_eq_none fun id hid => hids hid h
    · exact read_of_keyOf_none h
  | update old new =>
    constructor
    · intro h
      have hkey : old.keyOf = new.keyOf := by
        refine Option.ext fun id => ⟨fun hold => ?_, fun hnew => ?_⟩
        · exact hsame (fun _ hid => hids hid h) hold
        · exact hsame (fun _ hid => (hids hid h).symm) hnew
      refine ⟨hkey, fun id hid col hcol hchanged => ?_⟩
      have hmem := h id col hcol (by
        change old.read id col ≠ new.read id col
        rwa [Row.read, Row.read, if_pos (hkey.trans hid), if_pos hid])
      rw [affectedPaths_event] at hmem
      exact (mem_mapRow_of_keyOf hrel hnone hid hcol).1 hmem
    · rintro ⟨hkey, hcolumns⟩ id col hcol hchanged
      change old.read id col ≠ new.read id col at hchanged
      rw [affectedPaths_event]
      by_cases hid : new.keyOf = some id
      · rw [Row.read, Row.read, if_pos (hkey.trans hid), if_pos hid] at hchanged
        exact (mem_mapRow_of_keyOf hrel hnone hid hcol).2 (hcolumns id hid col hcol hchanged)
      · exact absurd ((read_eq_none (hkey ▸ hid)).trans (read_eq_none hid).symm) hchanged

/-! ### Tables with a mapper -/

/-- The mapper gives the row the key `table:id`. -/
def PathMapper.Finds (m : PathMapper) (rel : Relation) (row : Row) (id : Str) : Prop :=
  row.entries ≠ [] ∧ m.expandTemplate row = keyPath rel.relationName id

/-- Which changes announce all that they change, with a mapper: the template has to give the row the key under
which it is found, and the columns that have a value have to be configured. After an update it is the new row that
must have the key, also for the cells of the old one. -/
def RowChange.CoveredBy (m : PathMapper) (rel : Relation) : RowChange → Prop
  | .insert row | .delete row => ∀ id, row.keyOf = some id →
      m.Finds rel row id ∧ ∀ col, IsName col → row.text col ≠ none → col ∈ m.columns
  | .update old new => ∀ id col, IsName col → old.read id col ≠ new.read id col →
      m.Finds rel new id ∧ col ∈ m.columns

theorem mem_mapRow_mapper (hrel : IsName rel.relationName) {m : PathMapper}
    (hm : mappers.find? (fun m => m.table = rel.relationName) = some m) (hcolumns : ∀ c ∈ m.columns, 58 ∉ c)
    (hcol : 58 ∉ col) :
    rel.cellPath id col ∈ mapRow mappers rel.table row ↔ m.Finds rel row id ∧ col ∈ m.columns := by
  unfold mapRow PathMapper.Finds
  rw [shortTable_table hrel, hm]
  by_cases hrow : row.entries = []
  · simp [hrow]
  rw [if_neg hrow, and_iff_right hrow]
  unfold PathMapper.mapRowToPaths
  dsimp only
  rw [if_neg hrow]
  split_ifs with hkey
  · refine iff_of_false List.not_mem_nil fun h => ?_
    have hnil : keyPath rel.relationName id = [] := h.1.symm.trans hkey
    simp [keyPath, str] at hnil
  · rw [List.mem_map]
    constructor
    · rintro ⟨col', hmem, hpath⟩
      -- the last colon of the path stands before the column
      have hrev := congrArg List.reverse hpath
      have hsplit : col'.reverse ++ 58 :: (m.expandTemplate row).reverse =
          col.reverse ++ 58 :: (keyPath rel.relationName id).reverse := by
        simpa [Relation.cellPath, keyPath, str] using hrev
      obtain ⟨hcols, hkeys⟩ := append_cons_inj (fun h => hcolumns col' hmem (List.mem_reverse.1 h))
        (fun h => hcol (List.mem_reverse.1 h)) hsplit
      rw [← List.reverse_inj.1 hcols]
      exact ⟨List.reverse_inj.1 hkeys, hmem⟩
    · rintro ⟨hkeys, hmem⟩
      exact ⟨col, hmem, by rw [hkeys, Relation.cellPath]⟩

omit [RuneClasses] in
theorem keyOf_of_read (h : row.read id col ≠ none) : row.keyOf = some id := by
  by_contra hkey
  exact h (read_eq_none hkey)

theorem announced_mapper_iff (hrel : IsName rel.relationName) {m : PathMapper}
    (hm : mappers.find? (fun m => m.table = rel.relationName) = some m) (hcolumns : ∀ c ∈ m.columns, 58 ∉ c)
    (commitTime : Time) (c : RowChange) : Announced mappers rel commitTime c ↔ c.CoveredBy m rel := by
  have hmem : ∀ {id col : Str}, IsName col →
      (rel.cellPath id col ∈ mapRow mappers rel.table c.mapped ↔ m.Finds rel c.mapped id ∧ col ∈ m.columns) :=
    fun hcol => mem_mapRow_mapper hrel hm hcolumns hcol.2.1
  -- an insert and a delete change the cells of their one row
  have hone : (∀ id col, IsName col → c.mapped.read id col ≠ none →
      rel.cellPath id col ∈ mapRow mappers rel.table c.mapped) ↔ ∀ id, c.mapped.keyOf = some id →
        m.Finds rel c.mapped id ∧ ∀ col, IsName col → c.mapped.text col ≠ none → col ∈ m.columns := by
    constructor
    · intro h id hid
      have hcell : ∀ col, IsName col → c.mapped.text col ≠ none → m.Finds rel c.mapped id ∧ col ∈ m.columns :=
        fun col hcol htext => (hmem hcol).1 (h id col hcol (by rwa [Row.read, if_pos hid]))
      have htext : c.mapped.text (str "id") ≠ none := (keyOf_eq_some.1 hid).1 ▸ Option.some_ne_none id
      exact ⟨(hcell _ isName_id htext).1, fun col hcol htext => (hcell col hcol htext).2⟩
    · intro h id col hcol hread
      have hid := keyOf_of_read hread
      rw [Row.read, if_pos hid] at hread
      exact (hmem hcol).2 ⟨(h id hid).1, (h id hid).2 col hcol hread⟩
  unfold Announced
  rw [affectedPaths_event]
  cases c with
  | insert new => exact Iff.trans (forall₃_congr fun _ _ _ => imp_congr_left ne_comm) hone
  | delete old => exact hone
  | update old new => exact forall₃_congr fun _ _ hcol => forall_congr' fun _ => hmem hcol

end

def userRow (id name : Str) : Row :=
  ((∅ : Row).insert (str "name") (.text name)).insert (str "id") (.text id)

example : PathMapper.mapRowToPaths ⟨str "users", str "u:$\x7bid\x7d", [str "name"]⟩
    (userRow (str "1") (str "bob")) = [str "u:1:name"] := by decide

section Instances

local instance mappedRunes : RuneClasses := ⟨fun _ => false⟩

def usersRelation : Relation := ⟨str "public", str "users"⟩

def renumbered : RowChange := .update (userRow (str "1") (str "bob")) (userRow (str "2") (str "bob"))

def renamed : RowChange := .update (userRow (str "1") (str "bob")) (userRow (str "1") (str "ann"))

def usersMapper : PathMapper := ⟨str "users", str "users:$\x7bid\x7d", [str "id", str "name"]⟩

theorem text_userRow (id name col : Str) : (userRow id name).text col =
    if col = str "id" then some id else if col = str "name" then some name else none := by
  unfold userRow Row.text
  split_ifs with hid hname
  · rw [hid, AList.lookup_insert]
    rfl
  · rw [AList.lookup_insert_ne hid, hname, AList.lookup_insert]
    rfl
  · rw [AList.lookup_insert_ne hid, AList.lookup_insert_ne hname]
    rfl

/-- Only the name of the user 1 is changed. -/
theorem renamed_changes {id col : Str}
    (h : (userRow (str "1") (str "bob")).read id col ≠ (userRow (str "1") (str "ann")).read id col) :
    id = str "1" ∧ col = str "name" := by
  have hkey : ∀ name, (userRow (str "1") name).keyOf = some (str "1") := fun name =>
    keyOf_eq_some.2 ⟨by rw [text_userRow, if_pos rfl], by decide⟩
  have hid : str "1" = id := by
    by_contra hne
    have hnone : ∀ name, (userRow (str "1") name).read id col = none := fun name =>
      read_eq_none (by rw [hkey]; exact fun heq => hne (Option.some.inj heq))
    exact h ((hnone _).trans (hnone _).symm)
  subst hid
  refine ⟨rfl, ?_⟩
  by_contra hname
  rw [Row.read, Row.read, if_pos (hkey _), if_pos (hkey _), text_userRow, text_userRow] at h
  simp [hname] at h

end Instances

end Wavicle.Replication
