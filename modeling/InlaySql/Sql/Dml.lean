import InlaySql.Sql.Retrieval

/-!
# Writing rows

`INSERT`, `UPDATE` and `DELETE`: the rows a statement proposes, the constraints they are
held to, what a collision with a stored row leads to, and the order in which a row, its
index entries and its change note are written. Nothing here is undone when a later part
fails.
-/

namespace InlaySql.Sql

open Lib
open Stateful

/-! ## Constraints -/

def integerAffinity (real : F64) : Value :=
  let integer := real.toI64
  if real.magnitude < 0x7ff0000000000000 && (F64.ofInt integer).eq real &&
      decide (-2 ^ 63 < integer) && decide (integer < 2 ^ 63 - 1) then .integer integer
  else .real real

namespace Host

variable (host : Host)

def numericAffinity : Value -> Value
  | .text text => (host.numerals.numericAffinityOfText text).getD (.text text)
  | .real real => integerAffinity real
  | value => value

/-- `coerce`: a value fitted to its column. -/
def coerce (value : Value) (column : Column) (strict : Bool) : Except Error Value :=
  let mismatch : Except Error Value := .error (.type
    (s!"column `{column.name}` is {column.ty.name} but the value is {value.typeName}"))
  match column.ty, value with
  | _, .null => .ok .null
  | .integer, .integer _ => .ok value
  | .integer, .real real =>
    if strict then
      match integerAffinity real with
      | .integer integer => .ok (.integer integer)
      | _ => mismatch
    else mismatch
  | .real, .real _ => .ok value
  | .real, .integer integer => .ok (.real (F64.ofInt integer))
  | .text, .text _ => .ok value
  | .text, .integer integer => if strict then .ok (.text (toString integer)) else mismatch
  | .text, .real real => if strict then .ok (.text (host.numerals.realToText real)) else mismatch
  | .blob, .blob _ => .ok value
  | .numeric, .vector _ => mismatch
  | .numeric, value => .ok (host.numericAffinity value)
  | .any, .vector _ => mismatch
  | .any, value => .ok value
  | .vector dim, .vector lanes | .quantizedVector dim, .vector lanes =>
    if lanes.length = dim then .ok value
    else .error (.type (s!"column `{column.name}` is {column.ty.name} but the value has " ++
      s!"dimension {lanes.length}"))
  | _, _ => mismatch

end Host

/-- The declared constraints of a table, resolved. -/
structure TableRules where
  defaults : List (Option Expr)
  checks : List (String × Expr)
  unique : List (List Nat)

def tableRules (host : Host) (catalog : Catalog) (table : Table) : Except Error TableRules := do
  let defaults <- table.columns.mapM fun column =>
    match column.default with
    | some text => do return some (<- host.parseExpression none text)
    | none => .ok none
  match catalog.constraints table.name with
  | none => return ⟨defaults, [], []⟩
  | some constraints =>
    let checks <- constraints.checks.mapM fun check => do
      return (check, <- host.parseExpression (some table) check)
    let unique <- constraints.unique.mapM fun group =>
      group.columns.mapM fun column => do return (<- table.requireColumn column).1
    return ⟨defaults, checks, unique⟩

/-- A stored row a proposed one collides with, and the constraint it collides on. -/
structure Conflict where
  id : RowId
  values : Row
  columns : List Nat

def conflictError (table : Table) (conflict : Conflict) : Error :=
  let names := conflict.columns.map fun ordinal =>
    let column := ((table.columns[ordinal]?).map (·.name)).getD ""
    s!"{table.name}.{column}"
  let names := if names.isEmpty then [s!"{table.name}.rowid"] else names
  .constraint ("UNIQUE constraint failed: " ++ ", ".intercalate names)

def sameColumns (left right : List Nat) : Bool :=
  left.length == right.length && left.all fun column => right.contains column

/-- The rows of a table that may share a unique key with `row`: those an index over exactly
the group finds, or all of them. -/
def collisionCandidates (storage : Storage) (catalog : Catalog) (table : Table)
    (group : List Nat) (row : Row) : Except Error (List (RowId × Row)) :=
  let columns := group.filterMap fun ordinal => table.columns[ordinal]?
  let names := columns.map fun column => lower column.name
  let index := (catalog.btreeIndexOn table.name names (columns.map (·.collation))).filter
    fun _ => names.length == group.length
  match index with
  | some index => do
      let values <- indexValues table index row
      let range <- KeyRange.equality index.name values index.collations
      return storage.fetch table.name (storage.scanIndexRowIds range)
  | none => .ok (storage.rows table.name)

def collidingRows (storage : Storage) (catalog : Catalog) (table : Table) (group : List Nat)
    (row : Row) (exclude : Option RowId) : Except Error (List (RowId × Row)) :=
  if group.any fun ordinal => Row.cell row ordinal == .null then .ok []
  else do
    let collations := group.filterMap fun ordinal => (table.columns[ordinal]?).map (·.collation)
    let candidates <- collisionCandidates storage catalog table group row
    let found := candidates.filter fun (id, values) =>
      some id != exclude && uniqueKeyCollides group collations row values
    return found.mergeSort fun left right => decide (left.1 ≤ right.1)

/-- `conflicting_rows`: the row id first, then each `UNIQUE` in declaration order. -/
def conflictingRows (storage : Storage) (catalog : Catalog) (table : Table) (rules : TableRules)
    (id : RowId) (row : Row) : Except Error (List Conflict) := do
  let held : List Conflict :=
    match storage.getRow table.name id with
    | some values => [⟨id, values, table.rowidAlias.toList⟩]
    | none => []
  let groups <- rules.unique.mapM fun group => do
    let found <- collidingRows storage catalog table group row none
    return found.map fun (existing, values) => (⟨existing, values, group⟩ : Conflict)
  return held ++ groups.flatten

def ensureUnique (storage : Storage) (catalog : Catalog) (table : Table) (rules : TableRules)
    (id : RowId) (row : Row) : Except Error Unit :=
  rules.unique.forM fun group => do
    match <- collidingRows storage catalog table group row (some id) with
    | (existing, values) :: _ => throw (conflictError table ⟨existing, values, group⟩)
    | [] => pure ()

namespace Engine

variable (host : Host) (params : List Value)

/-- Evaluate an expression and fit it to its column. -/
def fitted (table : Table) (ordinal : Nat) (row : Row) (expr : Expr) : Method Value := do
  let value <- evaluate host params row expr
  match table.columns[ordinal]? with
  | some column => ofExcept (host.coerce value column table.strict)
  | none => fail (.catalog "column ordinal out of range")

/-- The `fill` of `proposed_rows`: a column the statement did not name takes its default. -/
def fill (table : Table) (rules : TableRules) (ordinal : Nat) (cell : Option Expr) :
    Method Value :=
  match cell <|> ((rules.defaults[ordinal]?).getD none) with
  | some expr => fitted host params table ordinal [] expr
  | none => pure .null

/-- The `NOT NULL` half of `apply_constraints`, column by column. -/
def applyNotNull (table : Table) (rules : TableRules) (policy : OnConflict) :
    List (Column × Nat) -> Row -> Method (Option Row)
  | [], row => pure (some row)
  | (column, ordinal) :: columns, row =>
    if !column.notNull || Row.cell row ordinal != .null then
      applyNotNull table rules policy columns row
    else do
      let violated : Error :=
        .constraint s!"NOT NULL constraint failed: {table.name}.{column.name}"
      -- `OR REPLACE` puts the default in the place of the `NULL`.
      let replaced <-
        match policy.coversEveryConstraint && policy.action == .replace,
            (rules.defaults[ordinal]?).getD none with
        | true, some expr => fitted host params table ordinal [] expr
        | _, _ => pure .null
      if replaced != .null then applyNotNull table rules policy columns (row.set ordinal replaced)
      else if policy.coversEveryConstraint && policy.action == .ignore then return none
      else fail violated

/-- The `CHECK` half: a check fails only when it is false. -/
def applyChecks (policy : OnConflict) (row : Row) : List (String × Expr) -> Method Bool
  | [] => pure true
  | (text, expr) :: checks => do
      let value <- evaluate host params row expr
      if value == .null || host.numerals.isTruthy value then applyChecks policy row checks
      else if policy.coversEveryConstraint && policy.action == .ignore then return false
      else fail (.constraint s!"CHECK constraint failed: {text}")

/-- `apply_constraints`: the row to write, or `none` for a row to skip. -/
def applyConstraints (table : Table) (rules : TableRules) (policy : OnConflict) (row : Row) :
    Method (Option Row) := do
  match <- applyNotNull host params table rules policy table.columns.zipIdx row with
  | none => return none
  | some row => return if <- applyChecks host params policy row rules.checks then some row else none

/-! ## Queries -/

/-- `hash_join_table`: the retained build when it has this shape and this write version, a
fresh one otherwise. A transaction with row changes neither looks nor retains. -/
def hashJoinTable (shape : JoinShape) : Method HashJoinTable := do
  let transactionHasWrites <- gets fun engine =>
    engine.inTransaction && !engine.pendingChanges.isEmpty
  let visible <- gets fun engine =>
    (engine.storage.rows shape.table).map fun stored => shape.mask.apply stored.2
  let retained <- gets fun engine => engine.hashJoinCache.filter fun cached =>
    !transactionHasWrites && cached.writeVersion == engine.writeVersion &&
      decide (cached.shape = shape)
  match retained with
  | some cached => do
      change fun engine => { engine with joins := engine.joins ++ [⟨shape, cached.table, visible⟩] }
      return cached.table
  | none => do
      check
      let table := HashJoinTable.build visible shape.innerKey shape.width shape.collation
      change fun engine => { engine with
        joins := engine.joins ++ [⟨shape, table, visible⟩]
        hashJoinCache :=
          if !transactionHasWrites && decide (0 < host.hashJoinCacheBytes) &&
              decide (host.residentBytes table ≤ host.hashJoinCacheBytes) then
            some ⟨engine.writeVersion, shape, table⟩
          else engine.hashJoinCache }
      return table

/-- A query run against what this handle reads. -/
def runQuery : Query -> Method (List Row)
  | .answer rows => fun engine =>
    let (result, rng) := rows engine.storage engine.catalog engine.now engine.rng
    (result, { engine with rng })
  | .hashJoin shape rest => do
      let shape <- gets fun engine => shape engine.storage engine.catalog
      let table <- hashJoinTable host shape
      runQuery (rest table)

/-- `select_body`: the indexes are brought up to date first. -/
def selectBody (query : Query) : Method (List Row) := do
  refreshIndexes host
  runQuery host query

/-! ## `INSERT` -/

/-- One row of the `SELECT` form of `proposed_rows`. -/
def proposedRow (table : Table) (rules : TableRules) (targets : List Nat) (values : Row) :
    Method Row :=
  table.columns.zipIdx.mapM fun (column, ordinal) =>
    match (targets.findIdx? (· == ordinal)) with
    | some position => ofExcept (host.coerce (values.cell position) column table.strict)
    | none => fill host params table rules ordinal none

/-- `proposed_rows`: every row is built before any is written. -/
def proposedRows (table : Table) (rules : TableRules) : InsertSource -> Method (List Row)
  | .values rows => rows.mapM fun cells =>
    cells.zipIdx.mapM fun (cell, ordinal) => fill host params table rules ordinal cell
  | .select query targets => do
      let result <- selectBody host query
      result.mapM (proposedRow host params table rules targets)

/-- `id as i64`. -/
def asI64 (id : RowId) : Int := if id < 2 ^ 63 then (id : Int) else (id : Int) - 2 ^ 64

/-- `rowid_for`: the row's id, whether the engine chose it, and the row with it. -/
def rowidFor (row : Row) (ordinal : Nat) : Method (RowId × Bool × Row) :=
  match row[ordinal]? with
  | some (.integer key) =>
    match rowIdOfInt key with
    | some id => pure (id, false, row)
    | none => fail (.unsupported s!"an INTEGER PRIMARY KEY must be positive; got {key}")
  | some .null | none => do
      let id <- gets (·.nextRowId)
      return (id, true, row.set ordinal (.integer (asI64 id)))
  | some other => fail (.type
      s!"an INTEGER PRIMARY KEY must be an integer; got {other.typeName}")

/-- The row id an `INSERT` stores a row under. -/
def resolveRowId (table : Table) (row : Row) : Method (RowId × Bool × Row) :=
  match table.rowidAlias with
  | some ordinal => rowidFor row ordinal
  | none => do return (<- gets (·.nextRowId), true, row)

/-- Delete a row with its entries and its documents, and note it. -/
def removeRow (table : Table) (indexes : RowIndexes) (id : RowId) (row : Row) : Method Unit := do
  removeBtreeEntries table indexes id row
  write (·.deleteRow table.name id)
  deindexRowRetrieval table indexes id row
  if !table.temporary then noteChange table.name id .delete else pure ()

/-- The `OR REPLACE` arm: every conflicting row goes, each once. -/
def removeConflicts (table : Table) (indexes : RowIndexes) :
    List RowId -> List Conflict -> Method Unit
  | _, [] => pure ()
  | deleted, conflict :: conflicts =>
    if deleted.contains conflict.id then removeConflicts table indexes deleted conflicts
    else do
      removeRow table indexes conflict.id conflict.values
      removeConflicts table indexes (conflict.id :: deleted) conflicts

/-- A row resized to the width of its table. -/
def resized (table : Table) (row : Row) : Row :=
  (row ++ List.replicate (table.columns.length - row.length) Value.null).take table.columns.length

/-- The assignments of an `UPDATE`, each evaluated over `source`. -/
def assigned (table : Table) (source : Row) (assignments : List (Nat × Expr)) (start : Row) :
    Method Row :=
  assignments.foldlM (fun next (ordinal, expr) => do
    return next.set ordinal (<- fitted host params table ordinal source expr)) start

/-- Whether a row passes an optional filter. -/
def admitted (filter : Option Expr) (row : Row) : Method Bool :=
  match filter with
  | some filter => do return host.numerals.isTruthy (<- evaluate host params row filter)
  | none => pure true

/-- `upsert_row`: `none` when the clause's `WHERE` excludes the stored row. -/
def upsertRow (table : Table) (rules : TableRules) (update : ConflictUpdate)
    (existing proposed : Row) : Method (Option Row) := do
  let pair := existing ++ proposed
  if <- admitted host params update.filter pair then
    let next <- assigned host params table pair update.assignments (resized table existing)
    let _ <- applyConstraints host params table rules .abort next
    return some next
  else return none

/-- Where a changed row goes: its `INTEGER PRIMARY KEY`, when that is set to an integer. -/
def movedTo (table : Table) (id : RowId) (next : Row) : Except Error RowId :=
  match table.rowidAlias with
  | some ordinal =>
    match next[ordinal]? with
    | some (.integer key) =>
      match rowIdOfInt key with
      | some moved => .ok moved
      | none => .error (.unsupported s!"an INTEGER PRIMARY KEY must be positive; got {key}")
    | _ => .ok id
  | none => .ok id

/-- The column a moved row collides on. -/
def aliasName (table : Table) : String :=
  match table.rowidAlias with
  | some ordinal => ((table.columns[ordinal]?).map (·.name)).getD ""
  | none => "rowid"

/-- `write_changed_row`: storage first, the retrieval indexes next, the notes last. -/
def writeChangedRow (table : Table) (indexes : RowIndexes) (id : RowId) (old next : Row) :
    Method RowId := do
  let moved <- ofExcept (movedTo table id next)
  let taken <- gets fun engine => moved != id && (engine.storage.getRow table.name moved).isSome
  if taken then fail (.constraint s!"UNIQUE constraint failed: {table.name}.{aliasName table}")
  else
    removeBtreeEntries table indexes id old
    if moved != id then write (·.deleteRow table.name id) else pure ()
    write (·.putRow table.name moved (host.storedRow table next))
    writeBtreeEntries table indexes moved next
    deindexRowRetrieval table indexes id old
    indexRowRetrieval table indexes moved next
    if moved != id then do
      if !table.temporary then noteChange table.name id .delete else pure ()
      reserveRowId moved
    else pure ()
    if !table.temporary then noteChange table.name moved .update else pure ()
    return moved

/-- `project_row`: a row written by a statement has no score. -/
def projectRow (items : List SelectItem) (row : Row) : Method Row :=
  items.mapM fun
    | .column index _ => pure (row.cell index)
    | .expr expr _ => evaluate host params row expr
    | .score _ => pure .null

/-- The `RETURNING` clause over one row, if there is one. -/
def returnRow (returning : Option (List SelectItem)) (row : Row) : Method (List Row) :=
  match returning with
  | some items => do return [<- projectRow host params items row]
  | none => pure []

/-- `project_stored`, if there is a `RETURNING` clause. -/
def returnStored (returning : Option (List SelectItem)) (table : Table) (id : RowId) :
    Method (List Row) := do
  let row <- gets fun engine => (engine.storage.getRow table.name id).getD []
  returnRow host params returning row

/-- What a statement has written and returned so far. -/
abbrev Progress := Nat × List Row

/-- Store a new row with its entries and its documents, and note it. -/
def storeRow (table : Table) (indexes : RowIndexes) (id : RowId) (chosen : Bool) (row : Row) :
    Method Unit := do
  write (·.putRow table.name id (host.storedRow table row))
  if chosen then change fun engine => { engine with lastInsertRowId := some id } else pure ()
  indexRow table indexes id row
  if !table.temporary then noteChange table.name id .insert else pure ()

/-- A row that collides with none, or whose conflicts have been removed. -/
def insertFresh (plan : InsertPlan) (table : Table) (indexes : RowIndexes) (id : RowId)
    (chosen : Bool) (row : Row) (progress : Progress) : Method Progress := do
  storeRow host table indexes id chosen row
  return (progress.1 + 1, progress.2 ++ (<- returnRow host params plan.returning row))

/-- The conflict of `conflicts` the clause answers for, if any. -/
def answeredConflict (policy : OnConflict) (conflicts : List Conflict) : Option Conflict :=
  match policy.target with
  | none => conflicts.head?
  | some target => conflicts.find? fun conflict => sameColumns conflict.columns target

/-- The `DO UPDATE` arm. -/
def insertUpdating (plan : InsertPlan) (table : Table) (rules : TableRules)
    (indexes : RowIndexes) (update : ConflictUpdate) (conflict : Conflict) (row : Row)
    (progress : Progress) : Method Progress := do
  match <- upsertRow host params table rules update conflict.values row with
  | none => return progress
  | some next => do
      tryGets fun engine => ensureUnique engine.storage engine.catalog table rules conflict.id next
      let id <- writeChangedRow host table indexes conflict.id conflict.values next
      return (progress.1 + 1, progress.2 ++ (<- returnStored host params plan.returning table id))

/-- One row of `insert_uncommitted`. -/
def insertRow (plan : InsertPlan) (table : Table) (rules : TableRules) (indexes : RowIndexes)
    (progress : Progress) (proposed : Row) : Method Progress := do
  check
  let (id, chosen, row) <- resolveRowId table proposed
  -- The key is used up as soon as it is resolved, whatever becomes of the row.
  reserveRowId id
  match <- applyConstraints host params table rules plan.onConflict row with
  | none => return progress
  | some row => do
      let conflicts <- tryGets fun engine =>
        conflictingRows engine.storage engine.catalog table rules id row
      match conflicts with
      | [] => insertFresh host params plan table indexes id chosen row progress
      | first :: _ =>
        match plan.onConflict.action, answeredConflict plan.onConflict conflicts with
        | _, none | .abort, some _ => fail (conflictError table first)
        | .ignore, some _ => return progress
        | .replace, some _ => do
            removeConflicts table indexes [] conflicts
            insertFresh host params plan table indexes id chosen row progress
        | .update update, some conflict =>
          insertUpdating host params plan table rules indexes update conflict row progress

/-! ## Tables without row ids -/

/-- The ordinals and the collations of the primary key. -/
def primaryKeyOf (table : Table) : Except Error (List Nat × List Collation) := do
  let ordinals <- table.primaryKey.mapM fun column => do return (<- table.requireColumn column).1
  return (ordinals, ordinals.map fun ordinal =>
    ((table.columns[ordinal]?).map (·.collation)).getD .binary)

/-- `primary_key_bytes` of a row. -/
def primaryKeyBytes (key : List Nat × List Collation) (row : Row) : Except Error Bytes :=
  encodeValues key.2 0 (key.1.map row.cell)

/-- One row of `insert_uncommitted_without_rowid`. -/
def insertKeyedRow (plan : InsertPlan) (table : Table) (rules : TableRules)
    (key : List Nat × List Collation) (progress : Progress) (proposed : Row) :
    Method Progress := do
  check
  match <- applyConstraints host params table rules plan.onConflict proposed with
  | none => return progress
  | some row => do
      let bytes <- ofExcept (primaryKeyBytes key row)
      let store : Method Progress := do
        write (·.putRowKeyed table.name bytes (host.storedRow table row))
        return (progress.1 + 1, progress.2 ++ (<- returnRow host params plan.returning row))
      if <- gets fun engine => (engine.storage.getRowKeyed table.name bytes).isNone then store
      else if !plan.onConflict.target.all (sameColumns key.1) then
        fail (conflictError table ⟨0, [], key.1⟩)
      else
        match plan.onConflict.action with
        | .abort => fail (conflictError table ⟨0, [], key.1⟩)
        | .ignore => return progress
        | .replace => do
            write (·.deleteRowKeyed table.name bytes)
            store
        | .update _ => fail (.unsupported
            "ON CONFLICT DO UPDATE on a WITHOUT ROWID table is not supported yet")

/-- One row of `update_without_rowid`. -/
def updateKeyedRow (plan : UpdatePlan) (table : Table) (rules : TableRules)
    (key : List Nat × List Collation) (progress : Progress) (stored : Bytes × Row) :
    Method Progress := do
  check
  if <- admitted host params plan.filter stored.2 then
    let next <- assigned host params table stored.2 plan.assignments (resized table stored.2)
    let _ <- applyConstraints host params table rules .abort next
    let bytes <- ofExcept (primaryKeyBytes key next)
    let taken <- gets fun engine =>
      bytes != stored.1 && (engine.storage.getRowKeyed table.name bytes).isSome
    if taken then fail (conflictError table ⟨0, [], key.1⟩)
    else
      if bytes != stored.1 then write (·.deleteRowKeyed table.name stored.1) else pure ()
      write (·.putRowKeyed table.name bytes (host.storedRow table next))
      return (progress.1 + 1, progress.2 ++ (<- returnRow host params plan.returning next))
  else return progress

/-- One row of `delete_without_rowid`. -/
def deleteKeyedRow (plan : DeletePlan) (table : Table) (progress : Progress)
    (stored : Bytes × Row) : Method Progress := do
  check
  if <- admitted host params plan.filter stored.2 then
    let returned <- returnRow host params plan.returning stored.2
    write (·.deleteRowKeyed table.name stored.1)
    return (progress.1 + 1, progress.2 ++ returned)
  else return progress

/-! ## The statements -/

def insertUncommitted (plan : InsertPlan) : Method Progress := do
  let table <- tryGets fun engine => engine.catalog.requireTable plan.table
  let rules <- tryGets fun engine => tableRules host engine.catalog table
  if table.withoutRowid then
    let key <- ofExcept (primaryKeyOf table)
    let proposed <- proposedRows host params table rules plan.source
    proposed.foldlM (insertKeyedRow host params plan table rules key) (0, [])
  else
    let proposed <- proposedRows host params table rules plan.source
    let indexes <- gets fun engine => RowIndexes.resolve engine.catalog table.name
    proposed.foldlM (insertRow host params plan table rules indexes) (0, [])

/-- One row of `update`. -/
def updateRow (plan : UpdatePlan) (table : Table) (rules : TableRules) (indexes : RowIndexes)
    (progress : Progress) (stored : RowId × Row) : Method Progress := do
  check
  if <- admitted host params plan.filter stored.2 then
    let next <- assigned host params table stored.2 plan.assignments (resized table stored.2)
    let _ <- applyConstraints host params table rules .abort next
    tryGets fun engine => ensureUnique engine.storage engine.catalog table rules stored.1 next
    let id <- writeChangedRow host table indexes stored.1 stored.2 next
    return (progress.1 + 1, progress.2 ++ (<- returnStored host params plan.returning table id))
  else return progress

/-- `update`, short of committing. -/
def updateUncommitted (plan : UpdatePlan) : Method Progress := do
  let table <- tryGets fun engine => engine.catalog.requireTable plan.table
  let rules <- tryGets fun engine => tableRules host engine.catalog table
  if table.withoutRowid then
    let key <- ofExcept (primaryKeyOf table)
    let candidates <- gets fun engine => engine.storage.keyedRows table.name
    candidates.foldlM (updateKeyedRow host params plan table rules key) (0, [])
  else
    let indexes <- gets fun engine => RowIndexes.resolve engine.catalog table.name
    let candidates <- tryGets fun engine =>
      candidateRows engine.storage engine.catalog table plan.filter params
    candidates.foldlM (updateRow host params plan table rules indexes) (0, [])

/-- One row of `delete`: what it returns is projected before the row goes. -/
def deleteRow (plan : DeletePlan) (table : Table) (indexes : RowIndexes) (progress : Progress)
    (stored : RowId × Row) : Method Progress := do
  check
  if <- admitted host params plan.filter stored.2 then
    let returned <- returnRow host params plan.returning stored.2
    removeRow table indexes stored.1 stored.2
    return (progress.1 + 1, progress.2 ++ returned)
  else return progress

/-- `delete`, short of committing. -/
def deleteUncommitted (plan : DeletePlan) : Method Progress := do
  let table <- tryGets fun engine => engine.catalog.requireTable plan.table
  if table.withoutRowid then
    let candidates <- gets fun engine => engine.storage.keyedRows table.name
    candidates.foldlM (deleteKeyedRow host params plan table) (0, [])
  else
    let indexes <- gets fun engine => RowIndexes.resolve engine.catalog table.name
    let candidates <- tryGets fun engine =>
      candidateRows engine.storage engine.catalog table plan.filter params
    candidates.foldlM (deleteRow host params plan table indexes) (0, [])

end Engine

end InlaySql.Sql
