import InlaySql.Sql.Declare

/-!
# The calls on a catalog

The methods the engine calls on its catalog, each as the steps it takes: a check that fails
leaves behind whatever the steps before it have changed. `Issued` says which calls the engine
makes in a given catalog, with what the planner and the engine have checked by then.
-/

namespace InlaySql.Sql

open Lib
open Stateful

/-- A method of the catalog. -/
abbrev CatalogMethod := Stateful Catalog Error

namespace CatalogMethod

/-- The declared constraints of a durable table replaced. -/
def setConstraints (key : String) (constraints : TableConstraints) : CatalogMethod Unit :=
  change fun catalog =>
    { catalog with constraintsOf := catalog.constraintsOf.insert key constraints }

def createTableWith (table : Table) (constraints : TableConstraints) : CatalogMethod Unit := do
  let key := lower table.name
  if <- gets fun catalog => (catalog.tables[key]?).isSome then
    fail (.catalog s!"table `{table.name}` already exists")
  else
    ofExcept (Catalog.requireColumns table constraints.named)
    if constraints.isEmpty then pure () else setConstraints key constraints
    change fun catalog => { catalog with tables := catalog.tables.insert key table }

def createTempTable (table : Table) (constraints : TableConstraints) : CatalogMethod Unit := do
  let key := lower table.name
  if <- gets fun catalog => (catalog.tempTables[key]?).isSome then
    fail (.catalog s!"temporary table `{table.name}` already exists")
  else
    ofExcept (Catalog.requireColumns table constraints.named)
    if constraints.isEmpty then pure ()
    else
      change fun catalog =>
        { catalog with tempConstraints := catalog.tempConstraints.insert key constraints }
    change fun catalog => { catalog with tempTables := catalog.tempTables.insert key table }

def dropTable (name : String) : CatalogMethod Unit := do
  let key := lower name
  if <- gets fun catalog => (catalog.tempTables[key]?).isSome then
    change fun catalog => { catalog with tempTables := catalog.tempTables.erase key }
    change fun catalog => { catalog with tempConstraints := catalog.tempConstraints.erase key }
  else if <- gets fun catalog => (catalog.tables[key]?).isNone then
    fail (.catalog s!"no such table: {name}")
  else
    change fun catalog => { catalog with tables := catalog.tables.erase key }
    change fun catalog => { catalog with constraintsOf := catalog.constraintsOf.erase key }
    change fun catalog =>
      { catalog with indexes := catalog.indexes.filter fun _ index => !sameName index.table key }

def renameTable (source target : String) : CatalogMethod Unit := do
  let old := lower source
  let new := lower target
  match <- gets fun catalog => catalog.tables[old]? with
  | none => fail (.catalog s!"no such table: {source}")
  | some table =>
    if <- gets fun catalog => decide (old ≠ new) && (catalog.tables[new]?).isSome then
      fail (.catalog s!"table `{target}` already exists")
    else
      change fun catalog => { catalog with tables := catalog.tables.erase old }
      change fun catalog =>
        { catalog with tables := catalog.tables.insert new { table with name := target } }
      match <- gets fun catalog => catalog.constraintsOf[old]? with
      | none => pure ()
      | some constraints =>
        change fun catalog => { catalog with constraintsOf := catalog.constraintsOf.erase old }
        setConstraints new constraints
      change fun catalog =>
        { catalog with indexes := catalog.indexes.map fun _ index =>
            if index.table == old then { index with table := new } else index }

def addColumn (table : String) (column : Column) : CatalogMethod Unit := do
  let target <- tryGets (·.requireTableMut table)
  if (target.column column.name).isSome then
    fail (.catalog s!"duplicate column name: {column.name}")
  else change (·.setTable table { target with columns := target.columns ++ [column] })

/-- One `CHECK` of a table replaced. -/
def setCheck (key : String) (position : Nat) (check : String) : CatalogMethod Unit :=
  change fun catalog =>
    { catalog with constraintsOf := catalog.constraintsOf.modify key fun constraints =>
        { constraints with checks := constraints.checks.set position check } }

/-- `rename_column`: the table, then its constraints, then the checks one by one, then the
indexes. -/
def renameColumn (rewriteCheck : String -> Except Error String) (table old new : String) :
    CatalogMethod Unit := do
  let key := lower table
  let target <- tryGets (·.requireTableMut table)
  let (ordinal, _) <- ofExcept (target.requireColumn old)
  if !sameName old new && (target.column new).isSome then
    fail (.catalog s!"duplicate column name: {new}")
  else
    change (·.setTable table
      { target with columns := target.columns.modify ordinal ({ · with name := new }) })
    match <- gets fun catalog => catalog.constraintsOf[key]? with
    | none => pure ()
    | some constraints =>
      setConstraints key (constraints.renameColumn old new)
      constraints.checks.zipIdx.forM fun check => do
        setCheck key check.2 (<- ofExcept (rewriteCheck check.1))
    change fun catalog =>
      { catalog with indexes := catalog.indexes.map fun _ index =>
          if index.table == key then
            { index with columns := index.columns.map fun column =>
                if column == lower old then lower new else column }
          else index }

def dropColumn (checkMentions : String -> String -> Except Error Bool) (table column : String) :
    CatalogMethod Unit := do
  let ordinal <- tryGets (·.droppableColumn table column checkMentions)
  let target <- tryGets (·.requireTableMut table)
  change (·.setTable table { target with columns := target.columns.eraseIdx ordinal })

/-- `create_index`: every check comes before the one insertion. -/
def createIndex (index : Index) : CatalogMethod Unit := do
  let _ <- tryGets (·.createIndex index)
  change fun catalog =>
    { catalog with indexes := catalog.indexes.insert (lower index.name) index }

def dropIndex (name : String) : CatalogMethod Unit := do
  if <- gets fun catalog => (catalog.indexes[lower name]?).isNone then
    fail (.catalog s!"no such index: {name}")
  else change fun catalog => { catalog with indexes := catalog.indexes.erase (lower name) }

def createUniqueConstraint (table : String) (constraint : UniqueConstraint) :
    CatalogMethod Unit := do
  let definition <- tryGets (·.requireTable table)
  ofExcept (Catalog.requireColumns definition constraint.columns)
  if <- gets fun catalog => constraint.name.any fun name =>
      (catalog.indexes[lower name]?).isSome || (catalog.uniqueConstraint name).isSome then
    let name := constraint.name.getD ""
    fail (.catalog s!"index `{name}` already exists")
  else
    change fun catalog =>
      let before := (catalog.constraintsOf[lower table]?).getD .empty
      { catalog with
        constraintsOf := catalog.constraintsOf.insert (lower table)
          { before with unique := before.unique ++ [constraint] } }

end CatalogMethod

/-! ## The calls -/

/-- One call on the catalog. -/
inductive Call where
  | createTableWith (table : Table) (constraints : TableConstraints)
  | createTempTable (table : Table) (constraints : TableConstraints)
  | dropTable (name : String)
  | renameTable (source target : String)
  | addColumn (table : String) (column : Column)
  | renameColumn (table old new : String)
  | dropColumn (table column : String)
  | createIndex (index : Index)
  | dropIndex (name : String)
  | createUniqueConstraint (table : String) (constraint : UniqueConstraint)
  | dropUniqueConstraint (name : String)
  deriving DecidableEq, Repr

/-- How the planner reads a stored `CHECK` again: `rewrite_column_reference` and
`expression_mentions`, over a tokenizer that may fail. -/
structure CheckTexts where
  rewriteColumnReference : (text old new : String) -> Except Error String
  expressionMentions : (text column : String) -> Except Error Bool

namespace Call

/-- What a call does to the catalog. -/
def perform (texts : CheckTexts) : Call -> CatalogMethod Unit
  | .createTableWith table constraints => CatalogMethod.createTableWith table constraints
  | .createTempTable table constraints => CatalogMethod.createTempTable table constraints
  | .dropTable name => CatalogMethod.dropTable name
  | .renameTable source target => CatalogMethod.renameTable source target
  | .addColumn table column => CatalogMethod.addColumn table column
  | .renameColumn table old new =>
    CatalogMethod.renameColumn (texts.rewriteColumnReference · old new) table old new
  | .dropColumn table column =>
    CatalogMethod.dropColumn texts.expressionMentions table column
  | .createIndex index => CatalogMethod.createIndex index
  | .dropIndex name => CatalogMethod.dropIndex name
  | .createUniqueConstraint table constraint =>
    CatalogMethod.createUniqueConstraint table constraint
  | .dropUniqueConstraint name => change (·.dropUniqueConstraint name)

/-- The table names a call is about. -/
def tableNames : Call -> List String
  | .createTableWith table _ | .createTempTable table _ => [table.name]
  | .dropTable name => [name]
  | .renameTable source target => [source, target]
  | .addColumn table _ | .renameColumn table _ _ | .dropColumn table _ => [table]
  | .createIndex index => [index.table]
  | .createUniqueConstraint table _ => [table]
  | .dropIndex _ | .dropUniqueConstraint _ => []

end Call

/-- A column an `ALTER TABLE ... ADD COLUMN` may add: `added_column` refuses a key. -/
def addedColumn (name : String) (ty : DataType) (notNull : Bool) (default : Option String)
    (collation : Collation) : Column :=
  { name, ty, primaryKey := false, notNull, default, collation }

/-- The calls the engine makes in a catalog. -/
inductive Issued (catalog : Catalog) : Call -> Prop where
  | createTable {create : CreateTable} {table constraints}
      (planned : planCreateTable create = .ok (table, constraints))
      (kept : table.temporary = false) : Issued catalog (.createTableWith table constraints)
  | createTempTable {create : CreateTable} {table constraints}
      (planned : planCreateTable create = .ok (table, constraints))
      (temporary : table.temporary = true) : Issued catalog (.createTempTable table constraints)
  | createTableAs {name labels table constraints}
      (planned : planCreateTableAsSelect name false labels = .ok (table, constraints)) :
      Issued catalog (.createTableWith table constraints)
  | createTempTableAs {name labels table constraints}
      (planned : planCreateTableAsSelect name true labels = .ok (table, constraints)) :
      Issued catalog (.createTempTable table constraints)
  /-- `create_table_uncommitted`, once the table is registered. -/
  | implicitIndex {table column index}
      (created : catalog.tables[lower table.name]? = some table) (declared : column ∈ table.columns)
      (wanted : Engine.implicitIndex table column = some index) : Issued catalog (.createIndex index)
  /-- `declare_unique_indexes`, for the group at one position. -/
  | uniqueIndex {name constraints table group nth index}
      (found : catalog.constraints name = some constraints) (named : catalog.table name = some table)
      (declared : constraints.unique[nth]? = some group)
      (wanted : Engine.wantedIndex catalog table group nth = some index) :
      Issued catalog (.createIndex index)
  | dropTable {name table} (found : catalog.table name = some table) :
      Issued catalog (.dropTable name)
  /-- `alter_table` refuses a temporary table. -/
  | addColumn {name before ty notNull default collation columnName}
      (found : catalog.table name = some before) (kept : before.temporary = false)
      (rowid : before.withoutRowid = false) :
      Issued catalog (.addColumn before.name
        (addedColumn columnName ty notNull default collation))
  | renameTable {name before target}
      (found : catalog.table name = some before) (kept : before.temporary = false)
      (rowid : before.withoutRowid = false) (free : catalog.table target = none) :
      Issued catalog (.renameTable before.name target)
  | renameColumn {name before old new}
      (found : catalog.table name = some before) (kept : before.temporary = false) :
      Issued catalog (.renameColumn before.name old new)
  | dropColumn {name before column}
      (found : catalog.table name = some before) (kept : before.temporary = false)
      (rowid : before.withoutRowid = false) :
      Issued catalog (.dropColumn before.name column)
  /-- `create_index`, of a table the planner found neither temporary nor `WITHOUT ROWID`; the
  plan has the table's name lowercased. -/
  | createIndex {plan : CreateIndexPlan} {table : Table} {columns : List Column}
      (found : catalog.table plan.table = some table) (kept : table.temporary = false)
      (lowered : lower plan.table = plan.table)
      (resolved : plan.columns.mapM (table.columns[·]?) = some columns) :
      Issued catalog (.createIndex {
        name := plan.name, table := plan.table, columns := columns.map (lower ·.name),
        kind := plan.kind, unique := plan.unique, collations := plan.collations,
        metric := plan.metric })
  /-- The constraint half of a `CREATE UNIQUE INDEX`. -/
  | createUniqueConstraint {name tableName table columns}
      (found : catalog.table tableName = some table) (kept : table.temporary = false) :
      Issued catalog (.createUniqueConstraint tableName ⟨some name, columns⟩)
  | dropIndex (name : String) : Issued catalog (.dropIndex name)
  | dropUniqueConstraint (name : String) : Issued catalog (.dropUniqueConstraint name)

/-- The catalog of one engine, call after call, with only the allowed calls made. -/
def catalogSystem (texts : CheckTexts) (allowed : Catalog → Call → Prop) : System Catalog Call where
  Initial catalog := catalog = .empty
  Step catalog call next :=
    Issued catalog call ∧ allowed catalog call ∧ next = (call.perform texts catalog).2

end InlaySql.Sql
