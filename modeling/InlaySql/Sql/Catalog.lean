import InlaySql.Sql.Value

/-!
# The catalog

Tables, their constraints and their index declarations, keyed by lowercased name,
with the operations `CREATE`, `ALTER` and `DROP` go through. Temporary tables live in
a schema of their own that is never stored and shadows the durable one.
-/

namespace InlaySql.Sql

open Lib

/-- A map keyed by lowercased names, in name order. -/
abbrev NameMap (α : Type) := Std.ExtTreeMap String α compare

/-- A declared column type. -/
inductive DataType where
  | integer
  | real
  | text
  | blob
  | numeric
  | vector (dim : Nat)
  | quantizedVector (dim : Nat)
  | any
  deriving DecidableEq, Repr

namespace DataType

def vectorDim : DataType -> Option Nat
  | .vector dim | .quantizedVector dim => some dim
  | _ => none

def isQuantizedVector : DataType -> Bool
  | .quantizedVector _ => true
  | _ => false

def name : DataType -> String
  | .integer => "INTEGER"
  | .real => "REAL"
  | .text => "TEXT"
  | .blob => "BLOB"
  | .numeric => "NUMERIC"
  | .vector dim => s!"VECTOR({dim})"
  | .quantizedVector dim => s!"VECTOR({dim}, INT8)"
  | .any => "ANY"

end DataType

/-- One column of a table. Its `DEFAULT` is kept as the text it was written as. -/
structure Column where
  name : String
  ty : DataType
  primaryKey : Bool
  notNull : Bool
  default : Option String
  collation : Collation
  deriving DecidableEq, Repr

/-- A `FOREIGN KEY` declaration, recorded and not enforced. -/
structure ForeignKey where
  columns : List String
  table : String
  referenced : List String
  onDelete : Option String
  onUpdate : Option String
  deriving DecidableEq, Repr

/-- A `UNIQUE` constraint, named when it came from `CREATE UNIQUE INDEX`. -/
structure UniqueConstraint where
  name : Option String
  columns : List String
  deriving DecidableEq, Repr

/-- What a table declares beside its columns. -/
structure TableConstraints where
  unique : List UniqueConstraint
  checks : List String
  foreignKeys : List ForeignKey
  deriving DecidableEq, Repr

def sameName (left right : String) : Bool := lower left == lower right

namespace TableConstraints

def empty : TableConstraints := ⟨[], [], []⟩

def isEmpty (self : TableConstraints) : Bool :=
  self.unique.isEmpty && self.checks.isEmpty && self.foreignKeys.isEmpty

/-- The columns a `UNIQUE` or a `FOREIGN KEY` names. -/
def named (self : TableConstraints) : List String :=
  self.unique.flatMap (·.columns) ++ self.foreignKeys.flatMap (·.columns)

def mentions (self : TableConstraints) (column : String) : Bool :=
  self.named.any (sameName · column)

/-- The column names with `old` spelled `new`. -/
def renamed (old new : String) (columns : List String) : List String :=
  columns.map fun column => if sameName column old then new else column

/-- `rename_column`; the checks are rewritten by the caller. -/
def renameColumn (self : TableConstraints) (old new : String) : TableConstraints :=
  { self with
    unique := self.unique.map fun group => { group with columns := renamed old new group.columns }
    foreignKeys := self.foreignKeys.map fun key =>
      { key with columns := renamed old new key.columns } }

end TableConstraints

/-- One table. -/
structure Table where
  name : String
  columns : List Column
  strict : Bool
  withoutRowid : Bool
  primaryKey : List String
  temporary : Bool
  deriving DecidableEq, Repr

namespace Table

/-- `rowid_alias`: the ordinal of the `INTEGER PRIMARY KEY`. -/
def rowidAlias (self : Table) : Option Nat :=
  self.columns.findIdx? fun column => column.primaryKey && column.ty == .integer

/-- The ordinal of a column. -/
def ordinal (self : Table) (name : String) : Option Nat :=
  self.columns.findIdx? fun column => sameName column.name name

/-- `column`: a column by name, with its ordinal. -/
def column (self : Table) (name : String) : Option (Nat × Column) := do
  let ordinal <- self.ordinal name
  return (ordinal, <- self.columns[ordinal]?)

def requireColumn (self : Table) (name : String) : Except Error (Nat × Column) :=
  match self.column name with
  | some found => .ok found
  | none => .error (.catalog s!"no column `{name}` on table `{self.name}`")

end Table

/-- Which structure backs an index. -/
inductive IndexKind where
  | fullText
  | vector
  | btree
  deriving DecidableEq, Repr

/-- The distance of a vector index. -/
inductive VectorMetric where
  | cosine
  | l2
  deriving DecidableEq, Repr

def VectorMetric.opsName : VectorMetric -> String
  | .cosine => "vector_cosine_ops"
  | .l2 => "vector_l2_ops"

/-- One index declaration. The table and the columns are lowercased. -/
structure Index where
  name : String
  table : String
  columns : List String
  kind : IndexKind
  unique : Bool
  collations : List Collation
  metric : VectorMetric
  deriving DecidableEq, Repr

namespace Index

def collation (self : Index) (position : Nat) : Collation :=
  Collation.atPosition self.collations position

/-- The first column. -/
def column (self : Index) : String := (self.columns[0]?).getD ""

/-- `covers`: exactly these columns, in order. -/
def covers (self : Index) (columns : List String) : Bool :=
  self.columns.length == columns.length &&
    (self.columns.zip columns).all fun (left, right) => sameName left right

/-- `covers_collated`: and under exactly these collations. -/
def coversCollated (self : Index) (columns : List String) (collations : List Collation) : Bool :=
  self.covers columns && (List.range columns.length).all fun position =>
    self.collation position == Collation.atPosition collations position

end Index

def autoIndexName (table column : String) : String := s!"__inlaysql_auto_{table}_{column}"

def autoUniqueIndexName (table : String) (columns : List String) (nth : Nat) : String :=
  let joined := "_".intercalate columns
  s!"__inlaysql_uniq_{table}_{joined}_{nth}"

/-- All tables and indexes known to a database. -/
structure Catalog where
  tables : NameMap Table
  constraintsOf : NameMap TableConstraints
  indexes : NameMap Index
  tempTables : NameMap Table
  tempConstraints : NameMap TableConstraints
  deriving DecidableEq

namespace Catalog

def empty : Catalog := ⟨∅, ∅, ∅, ∅, ∅⟩

/-- The part `encode` writes: the temporary schema is not stored. -/
def durable (self : Catalog) : Catalog :=
  { self with tempTables := ∅, tempConstraints := ∅ }

def carryTempSchemaFrom (self previous : Catalog) : Catalog :=
  { self with tempTables := previous.tempTables, tempConstraints := previous.tempConstraints }

/-- `table`: the temporary schema shadows the durable one. -/
def table (self : Catalog) (name : String) : Option Table :=
  self.tempTables[lower name]? <|> self.tables[lower name]?

def requireTable (self : Catalog) (name : String) : Except Error Table :=
  match self.table name with
  | some table => .ok table
  | none => .error (.catalog s!"no such table: {name}")

/-- `constraints`: those of the table `table` finds. -/
def constraints (self : Catalog) (table : String) : Option TableConstraints :=
  if (self.tempTables[lower table]?).isSome then self.tempConstraints[lower table]?
  else self.constraintsOf[lower table]?

/-- `indexes_for`: the declarations on one table, in name order. -/
def indexesFor (self : Catalog) (table : String) : List Index :=
  self.indexes.toList.filterMap fun (_, index) =>
    if sameName index.table table then some index else none

/-- `unique_constraint`: the table a named `UNIQUE` constraint belongs to. -/
def uniqueConstraint (self : Catalog) (name : String) : Option String :=
  self.constraintsOf.toList.findSome? fun (table, constraints) =>
    if constraints.unique.any fun group => group.name.any (sameName · name) then some table
    else none

def btreeIndexOn (self : Catalog) (table : String) (columns : List String)
    (collations : List Collation) : Option Index :=
  (self.indexes.toList.map (·.2)).find? fun index =>
    index.kind == .btree && sameName index.table table && index.coversCollated columns collations

/-- Whether every column a constraint names exists. -/
def requireColumns (table : Table) (columns : List String) : Except Error Unit :=
  columns.forM fun column => do
    let _ <- table.requireColumn column

def createTableWith (self : Catalog) (table : Table) (constraints : TableConstraints) :
    Except Error Catalog := do
  let key := lower table.name
  if (self.tables[key]?).isSome then
    throw (.catalog s!"table `{table.name}` already exists")
  requireColumns table constraints.named
  return { self with
    constraintsOf :=
      if constraints.isEmpty then self.constraintsOf else self.constraintsOf.insert key constraints
    tables := self.tables.insert key table }

def createTempTable (self : Catalog) (table : Table) (constraints : TableConstraints) :
    Except Error Catalog := do
  let key := lower table.name
  if (self.tempTables[key]?).isSome then
    throw (.catalog s!"temporary table `{table.name}` already exists")
  requireColumns table constraints.named
  return { self with
    tempConstraints :=
      if constraints.isEmpty then self.tempConstraints
      else self.tempConstraints.insert key constraints
    tempTables := self.tempTables.insert key table }

/-- `drop_table`: the table and the index declarations that go with it. -/
def dropTable (self : Catalog) (name : String) : Except Error (Table × List Index × Catalog) :=
  let key := lower name
  match self.tempTables[key]? with
  | some table =>
    .ok (table, [], { self with
      tempTables := self.tempTables.erase key
      tempConstraints := self.tempConstraints.erase key })
  | none =>
    match self.tables[key]? with
    | none => .error (.catalog s!"no such table: {name}")
    | some table =>
      .ok (table, self.indexesFor key, { self with
        tables := self.tables.erase key
        constraintsOf := self.constraintsOf.erase key
        indexes := self.indexes.filter fun _ index => !sameName index.table key })

def renameTable (self : Catalog) (source target : String) : Except Error Catalog := do
  let old := lower source
  let new := lower target
  match self.tables[old]? with
  | none => throw (.catalog s!"no such table: {source}")
  | some table =>
    if old ≠ new && (self.tables[new]?).isSome then
      throw (.catalog s!"table `{target}` already exists")
    return { self with
      tables := (self.tables.erase old).insert new { table with name := target }
      constraintsOf :=
        match self.constraintsOf[old]? with
        | some constraints => (self.constraintsOf.erase old).insert new constraints
        | none => self.constraintsOf
      indexes := self.indexes.map fun _ index =>
        if index.table == old then { index with table := new } else index }

/-- `require_table_mut`: only the durable schema can be altered. -/
def requireTableMut (self : Catalog) (name : String) : Except Error Table :=
  match self.tables[lower name]? with
  | some table => .ok table
  | none => .error (.catalog s!"no such table: {name}")

/-- The definition of one durable table replaced. -/
def setTable (self : Catalog) (name : String) (table : Table) : Catalog :=
  { self with tables := self.tables.insert (lower name) table }

def addColumn (self : Catalog) (table : String) (column : Column) : Except Error Catalog := do
  let target <- self.requireTableMut table
  if (target.column column.name).isSome then
    throw (.catalog s!"duplicate column name: {column.name}")
  return self.setTable table { target with columns := target.columns ++ [column] }

/-- The refusals of `drop_column`; the ordinal it goes on to remove. -/
def droppableColumn (self : Catalog) (table column : String)
    (checkMentions : String -> String -> Except Error Bool) : Except Error Nat := do
  let target <- self.requireTable table
  let (ordinal, definition) <- target.requireColumn column
  let name := definition.name
  if target.columns.length = 1 then
    throw (.catalog s!"cannot drop column `{name}`: a table must keep at least one column")
  if definition.primaryKey then
    throw (.catalog s!"cannot drop column `{name}`: it is the PRIMARY KEY")
  match self.constraintsOf[lower table]? with
  | none => pure ()
  | some constraints => do
      if constraints.mentions name then
        throw (.catalog
          s!"cannot drop column `{name}`: a UNIQUE or FOREIGN KEY constraint names it")
      for check in constraints.checks do
        if <- checkMentions check name then
          throw (.catalog s!"cannot drop column `{name}`: a CHECK constraint names it")
  if self.indexes.toList.any fun (_, index) =>
      index.table == lower table && index.columns.contains (lower name) then
    throw (.catalog s!"cannot drop column `{name}`: it is indexed")
  return ordinal

def dropColumn (self : Catalog) (table column : String)
    (checkMentions : String -> String -> Except Error Bool) : Except Error (Nat × Catalog) := do
  let ordinal <- self.droppableColumn table column checkMentions
  let target <- self.requireTableMut table
  return (ordinal,
    self.setTable table { target with columns := target.columns.eraseIdx ordinal })

/-- Whether a column type can carry an index kind. -/
def checkIndexColumn (kind : IndexKind) (column : Column) : Except Error Unit :=
  let what := s!"column, but `{column.name}` is {column.ty.name}"
  match kind, column.ty with
  | .fullText, .text => .ok ()
  | .vector, .vector _ | .vector, .quantizedVector _ => .ok ()
  | .btree, .integer | .btree, .real | .btree, .text | .btree, .blob | .btree, .numeric => .ok ()
  | .fullText, _ => .error (.type s!"a full-text index needs a TEXT {what}")
  | .vector, _ => .error (.type s!"a vector index needs a VECTOR {what}")
  | .btree, _ => .error (.type s!"a B-tree index needs an orderable {what}")

def collationName : Collation -> String
  | .binary => "BINARY"
  | .noCase => "NOCASE"
  | .rTrim => "RTRIM"

/-- The refusal of a second index over the same columns. -/
def duplicateIndex (index existing : Index) : Error :=
  if index.kind == .vector && existing.metric != index.metric then
    .catalog (s!"`{index.table}`.`{index.column}` already has a {existing.metric.opsName} " ++
      s!"vector index (`{existing.name}`); one column carries one vector index, because " ++
      "`vector_score` names the column and not the metric and could not say which of two it " ++
      s!"meant. Drop `{existing.name}` first")
  else
    let columns := ", ".intercalate index.columns
    let collations := ", ".intercalate (index.collations.map collationName)
    .catalog s!"`{index.table}` already has an index of that kind on ({columns}) under {collations}"

/-- Whether a name is taken for an index: its own `UNIQUE` constraint does not count. -/
def indexNameTaken (self : Catalog) (index : Index) : Bool :=
  let isOwnConstraint := index.unique && index.kind == .btree &&
    (self.uniqueConstraint index.name).any (sameName · index.table)
  (self.indexes[lower index.name]?).isSome ||
    (!isOwnConstraint && (self.uniqueConstraint index.name).isSome)

def createIndex (self : Catalog) (index : Index) : Except Error Catalog := do
  if self.indexNameTaken index then
    throw (.catalog s!"index `{index.name}` already exists")
  if index.columns.isEmpty then
    throw (.catalog s!"index `{index.name}` names no columns")
  if index.collations.length ≠ index.columns.length then
    throw (.catalog (s!"index `{index.name}` declares {index.columns.length} column(s) and " ++
      s!"{index.collations.length} collation(s)"))
  match (self.indexes.toList.map (·.2)).find? fun existing =>
      existing.kind == index.kind && sameName existing.table index.table &&
        existing.coversCollated index.columns index.collations with
  | some existing => throw (duplicateIndex index existing)
  | none => pure ()
  let table <- self.requireTable index.table
  if index.kind == .vector && 1 < index.columns.length then
    throw (.unsupported "a vector index covers exactly one column")
  if index.unique && index.kind != .btree then
    throw (.unsupported "only a B-tree index can be UNIQUE; a retrieval index is not a constraint")
  if index.kind != .vector && index.metric != .cosine then
    throw (.unsupported (s!"`{index.name}` is not a vector index, so " ++
      s!"`{index.metric.opsName}` has nothing to apply to"))
  index.columns.forM fun name => do
    let (_, column) <- table.requireColumn name
    checkIndexColumn index.kind column
  return { self with indexes := self.indexes.insert (lower index.name) index }

def dropIndex (self : Catalog) (name : String) : Except Error (Index × Catalog) :=
  match self.indexes[lower name]? with
  | some index => .ok (index, { self with indexes := self.indexes.erase (lower name) })
  | none => .error (.catalog s!"no such index: {name}")

def createUniqueConstraint (self : Catalog) (table : String) (constraint : UniqueConstraint) :
    Except Error Catalog := do
  let definition <- self.requireTable table
  requireColumns definition constraint.columns
  match constraint.name with
  | none => pure ()
  | some name =>
    if (self.indexes[lower name]?).isSome || (self.uniqueConstraint name).isSome then
      throw (.catalog s!"index `{name}` already exists")
  let before := (self.constraintsOf[lower table]?).getD .empty
  let after := { before with unique := before.unique ++ [constraint] }
  return { self with constraintsOf := self.constraintsOf.insert (lower table) after }

/-- `drop_unique_constraint`: the first table that has it loses it. -/
def dropUniqueConstraint (self : Catalog) (name : String) : Catalog :=
  match self.uniqueConstraint name with
  | none => self
  | some table =>
    { self with constraintsOf := self.constraintsOf.modify table fun constraints =>
        { constraints with unique := constraints.unique.filter fun group =>
            !group.name.any (sameName · name) } }

end Catalog

end InlaySql.Sql
