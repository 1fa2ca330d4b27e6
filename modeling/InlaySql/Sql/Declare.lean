import InlaySql.Lib.Stateful
import InlaySql.Lib.Transition
import InlaySql.Sql.Plan

/-!
# Declaring tables and indexes

What the planner makes of a `CREATE TABLE`, which indexes the engine declares for it, and
every call the engine makes on its catalog, with what the planner and the engine have
checked before the call. A call changes the catalog in place, part by part: what a failing
call has already changed stays changed.
-/

namespace InlaySql.Sql

open Lib
open Stateful

/-! ## `CREATE TABLE` -/

/-- What a column of a `CREATE TABLE` says beside its name and type. -/
inductive ColumnOption where
  | null
  | notNull
  | default (text : String)
  | primaryKey
  | unique
  | collate (collation : Collation)
  | check (text : String)
  | references (key : ForeignKey)
  | autoincrement
  deriving DecidableEq, Repr

/-- A column as it is declared, its type resolved. -/
structure ColumnDef where
  name : String
  ty : DataType
  options : List ColumnOption
  deriving DecidableEq, Repr

/-- A constraint written beside the columns. -/
inductive TableConstraint where
  | primaryKey (columns : List String)
  | unique (columns : List String)
  | check (text : String)
  | foreignKey (key : ForeignKey)
  deriving DecidableEq, Repr

/-- A `CREATE TABLE` as it is written. -/
structure CreateTable where
  name : String
  columns : List ColumnDef
  constraints : List TableConstraint
  strict : Bool
  withoutRowid : Bool
  temporary : Bool
  deriving DecidableEq, Repr

/-- `Column::new`. -/
def Column.new (name : String) (ty : DataType) : Column :=
  { name, ty, primaryKey := false, notNull := false, default := none, collation := .binary }

/-- A column halfway through its options, with the constraints declared so far. -/
structure ColumnDraft where
  resolved : Column
  constraints : TableConstraints
  declaresPrimaryKey : Bool
  autoincrement : Bool

/-- One option of a column. A `REFERENCES` without columns of its own is about the column
it is written on. -/
def ColumnDraft.take (draft : ColumnDraft) : ColumnOption -> ColumnDraft
  | .null => draft
  | .notNull => { draft with resolved := { draft.resolved with notNull := true } }
  | .default text => { draft with resolved := { draft.resolved with default := some text } }
  | .primaryKey => { draft with declaresPrimaryKey := true }
  | .unique =>
    { draft with
      constraints := { draft.constraints with
        unique := draft.constraints.unique ++ [⟨none, [draft.resolved.name]⟩] } }
  | .collate collation => { draft with resolved := { draft.resolved with collation } }
  | .check text =>
    { draft with
      constraints := { draft.constraints with checks := draft.constraints.checks ++ [text] } }
  | .references key =>
    let columns := if key.columns.isEmpty then [draft.resolved.name] else key.columns
    { draft with
      constraints := { draft.constraints with
        foreignKeys := draft.constraints.foreignKeys ++ [{ key with columns }] } }
  | .autoincrement => { draft with autoincrement := true }

/-- A table halfway through its declaration. -/
structure TableDraft where
  columns : List Column
  constraints : TableConstraints
  primaryKey : Option (List String)

/-- One column of the declaration. -/
def TableDraft.takeColumn (create : CreateTable) (draft : TableDraft) (column : ColumnDef) :
    Except Error TableDraft := do
  let drafted := column.options.foldl ColumnDraft.take
    ⟨Column.new column.name column.ty, draft.constraints, false, false⟩
  if drafted.autoincrement && !(drafted.declaresPrimaryKey && drafted.resolved.ty == .integer) then
    throw (.unsupported ("AUTOINCREMENT is only allowed on an INTEGER PRIMARY KEY; " ++
      s!"`{column.name}` is not one"))
  if drafted.autoincrement && create.withoutRowid then
    throw (.unsupported "AUTOINCREMENT is not allowed on a WITHOUT ROWID table")
  if drafted.declaresPrimaryKey && draft.primaryKey.isSome then
    throw (.catalog s!"table `{create.name}` declares more than one PRIMARY KEY")
  return {
    columns := draft.columns ++ [drafted.resolved]
    constraints := drafted.constraints
    primaryKey :=
      if drafted.declaresPrimaryKey then some [drafted.resolved.name] else draft.primaryKey }

/-- `index_columns`: a constraint names at least one column. -/
def indexColumns (columns : List String) : Except Error (List String) :=
  if columns.isEmpty then
    .error (.type "a UNIQUE or PRIMARY KEY constraint needs at least one column")
  else .ok columns

/-- `table_constraint`. -/
def TableDraft.takeConstraint (create : CreateTable) (draft : TableDraft) :
    TableConstraint -> Except Error TableDraft
  | .primaryKey columns => do
      if draft.primaryKey.isSome then
        throw (.catalog s!"table `{create.name}` declares more than one PRIMARY KEY")
      return { draft with primaryKey := some (<- indexColumns columns) }
  | .unique columns => do
      let columns <- indexColumns columns
      return { draft with
        constraints := { draft.constraints with
          unique := draft.constraints.unique ++ [⟨none, columns⟩] } }
  | .check text =>
    .ok { draft with
      constraints := { draft.constraints with checks := draft.constraints.checks ++ [text] } }
  | .foreignKey key => do
      if key.columns.isEmpty then throw (.type "a FOREIGN KEY needs at least one column")
      return { draft with
        constraints := { draft.constraints with
          foreignKeys := draft.constraints.foreignKeys ++ [key] } }

/-- The columns and constraints of a declaration, one after the other. -/
def CreateTable.draft (create : CreateTable) : Except Error TableDraft := do
  let drafted <- create.columns.foldlM (TableDraft.takeColumn create) ⟨[], .empty, none⟩
  let drafted <- create.constraints.foldlM (TableDraft.takeConstraint create) drafted
  if drafted.columns.isEmpty then
    throw (.catalog s!"table `{create.name}` must declare at least one column")
  return drafted

/-- `require_column` of a table that is not built yet. -/
def requireColumnOf (table : String) (columns : List Column) (name : String) :
    Except Error Nat :=
  match columns.findIdx? fun column => sameName column.name name with
  | some ordinal => .ok ordinal
  | none => .error (.catalog s!"no column `{name}` on table `{table}`")

/-- The key columns of a `WITHOUT ROWID` table are `NOT NULL`. -/
def requireKey (table : String) (columns : List Column) (key : List String) :
    Except Error (List Column) :=
  key.foldlM (fun columns name => do
    let ordinal <- requireColumnOf table columns name
    return columns.modify ordinal ({ · with notNull := true })) columns

/-- A declaration the planner has accepted. -/
def finishTable (table : Table) (constraints : TableConstraints) :
    Except Error (Table × TableConstraints) := do
  Catalog.requireColumns table constraints.named
  return (table, constraints)

/-- The `WITHOUT ROWID` half of `plan_create_table`. -/
def planWithoutRowid (create : CreateTable) (drafted : TableDraft) :
    Except Error (Table × TableConstraints) := do
  match drafted.primaryKey with
  | none => throw (.catalog s!"PRIMARY KEY missing on table `{create.name}`")
  | some key =>
    match drafted.constraints.unique with
    | group :: _ =>
      let columns := ", ".intercalate group.columns
      throw (.unsupported (s!"UNIQUE on a WITHOUT ROWID table's column `{columns}` is not " ++
        "supported yet, for the same reason CREATE INDEX on one is not: it would need a " ++
        "secondary index pointing back to the row by row id, and this table has none"))
    | [] =>
      finishTable {
        name := create.name
        columns := <- requireKey create.name drafted.columns key
        strict := create.strict
        withoutRowid := true
        primaryKey := key
        temporary := create.temporary } drafted.constraints

/-- Fold a `PRIMARY KEY` in: a single `INTEGER` column is the row id, any other key is a
`UNIQUE` constraint. -/
def foldPrimaryKey (create : CreateTable) (drafted : TableDraft) : Except Error TableDraft := do
  match drafted.primaryKey with
  | none => return drafted
  | some key =>
    let rowidAlias <-
      match key with
      | [only] => do
          let ordinal <- requireColumnOf create.name drafted.columns only
          pure (if (drafted.columns[ordinal]?).any (·.ty == .integer) then some ordinal else none)
      | _ => pure none
    match rowidAlias with
    | some ordinal =>
      return { drafted with
        columns := drafted.columns.modify ordinal ({ · with primaryKey := true }) }
    | none =>
      return { drafted with
        constraints := { drafted.constraints with
          unique := drafted.constraints.unique ++ [⟨none, key⟩] } }

/-- `plan_create_table`: the table and its constraints. -/
def planCreateTable (create : CreateTable) : Except Error (Table × TableConstraints) := do
  let drafted <- create.draft
  if create.withoutRowid then planWithoutRowid create drafted
  else
    let drafted <- foldPrimaryKey create drafted
    match create.temporary, drafted.constraints.unique with
    | true, group :: _ =>
      let columns := ", ".intercalate group.columns
      throw (.unsupported (s!"UNIQUE on a temporary table's column `{columns}` is not " ++
        "supported yet, for the same reason CREATE INDEX on one is not: it would need a " ++
        "secondary index, and this storage router has no table to point one at"))
    | _, _ =>
      finishTable {
        name := create.name
        columns := drafted.columns
        strict := create.strict
        withoutRowid := false
        primaryKey := []
        temporary := create.temporary } drafted.constraints

/-- One column of `CREATE TABLE ... AS SELECT`: a label of its own, `NUMERIC` where the query
gives no type. -/
def takeLabel (columns : List Column) (labelled : String × Option DataType) :
    Except Error (List Column) :=
  if columns.any (sameName ·.name labelled.1) then
    .error (.unsupported ("CREATE TABLE ... AS SELECT does not support two columns both named " ++
      s!"`{labelled.1}`; alias one of them"))
  else .ok (columns ++ [Column.new labelled.1 (labelled.2.getD .numeric)])

/-- `plan_create_table_as_select`, from the labels and types of the query's columns. -/
def planCreateTableAsSelect (name : String) (temporary : Bool)
    (labels : List (String × Option DataType)) : Except Error (Table × TableConstraints) := do
  let columns <- labels.foldlM takeLabel []
  if columns.isEmpty then
    throw (.catalog s!"table `{name}` must declare at least one column")
  return ({
    name, columns, strict := false, withoutRowid := false, primaryKey := [], temporary }, .empty)

/-! ## The indexes of a new table -/

namespace Engine

/-- The index a column of an implicitly indexed table gets. -/
def implicitIndex (table : Table) (column : Column) : Option Index :=
  let kind : Option IndexKind :=
    match column.ty with
    | .text => some .fullText
    | .vector _ | .quantizedVector _ => some .vector
    | _ => none
  kind.map fun kind => {
    name := autoIndexName table.name column.name
    table := lower table.name
    columns := [lower column.name]
    kind
    unique := false
    collations := [.binary]
    metric := .cosine }

/-- The index `declare_unique_indexes` wants for one group, if it has none yet. -/
def wantedIndex (catalog : Catalog) (table : Table) (group : UniqueConstraint) (nth : Nat) :
    Option Index :=
  let columns := group.columns.map lower
  let orderable := columns.all fun column =>
    (table.column column).any fun (_, definition) => definition.ty.vectorDim.isNone
  let collations := columns.map fun column =>
    ((table.column column).map (·.2.collation)).getD .binary
  if !orderable || (catalog.btreeIndexOn table.name columns collations).isSome then none
  else some {
    name := group.name.getD (autoUniqueIndexName (lower table.name) columns nth)
    table := lower table.name
    columns, collations
    kind := .btree
    unique := true
    metric := .cosine }

end Engine

end InlaySql.Sql
