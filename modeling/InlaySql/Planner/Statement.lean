import InlaySql.Planner.Planner
import InlaySql.Sql.Declare

/-!
# The statements queries stand in

A query is a statement of its own, what an `INSERT` or a `CREATE TABLE` writes, or nested in
an expression of a statement that writes. What a plan supplies to the table it writes leaves
a column without a value to its default. The other clauses of a statement, and fitting a
stored value to its column, are left out.
-/

namespace InlaySql.Planner

open Lib Sql

/-- The queries nested in the expressions of a statement, each with the scope its expression
is resolved in. -/
abbrev Clauses (D : Dialect) := List (Scope × Query D)

/-- A statement, by the queries in it. -/
inductive Statement (D : Dialect) where
  | query (query : Query D)
  /-- Without a source, the `INSERT` is of `DEFAULT VALUES`. -/
  | insert (table : String) (columns : List String) (source : Option (Query D))
      (clauses : Clauses D)
  | createTableAs (name : String) (temporary declares : Bool) (query : Query D)
  /-- An `UPDATE` or a `DELETE`. -/
  | write (clauses : Clauses D)

variable {D : Dialect}

/-- A value of a table row, or none where the column takes its default. -/
abbrev Cells (α : Type) := List (Option α)

/-- The rows an `INSERT` writes. -/
inductive InsertSource (D : Dialect) where
  | values (rows : List (Cells D.Bound))
  | select (query : SubqueryBody D) (targets : List Nat)

inductive Plan (D : Dialect) where
  | query (body : SubqueryBody D)
  | insert (table : Table) (source : InsertSource D) (clauses : List (SubqueryBody D))
  | createTable (table : Table) (asSelect : SubqueryBody D)
  | write (clauses : List (SubqueryBody D))

/-! ## Planning -/

/-- The columns an `INSERT` names, by their ordinals. -/
def namedTargets (table : Table) : List String -> List Nat -> Except Error (List Nat)
  | [], targets => .ok targets
  | column :: rest, targets => do
      let (ordinal, _) <- table.requireColumn column
      refuse (targets.contains ordinal)
        (.type s!"column `{column}` is named twice in one INSERT")
      namedTargets table rest (targets ++ [ordinal])

/-- Which table column each supplied value belongs to. -/
def insertTargets (table : Table) (columns : List String) : Except Error (List Nat) :=
  if columns.isEmpty then .ok (List.range table.columns.length)
  else namedTargets table columns []

/-- One cell of `VALUES`. -/
def bindCell (D : Dialect) (table : Table) (expr : D.Operand) (target : Nat) :
    Except Error D.Bound := do
  let bound <- D.bindValue expr
  match table.columns[target]? with
  | some column => D.fitLiteral bound column table.strict
  | none => .ok bound

/-- The cells of one row of `VALUES`, each put in its column. -/
def fillRow (D : Dialect) (table : Table) : List D.Operand -> List Nat -> Cells D.Bound ->
    Except Error (Cells D.Bound)
  | expr :: exprs, target :: targets, fullRow => do
      let bound <- bindCell D table expr target
      fillRow D table exprs targets (fullRow.set target (some bound))
  | _, _, fullRow => .ok fullRow

/-- One row of `VALUES`. -/
def insertRow (D : Dialect) (table : Table) (targets : List Nat) (exprs : List D.Operand) :
    Except Error (Cells D.Bound) := do
  refuse (exprs.length != targets.length) (.type (s!"row has {exprs.length} value(s) but " ++
    s!"{targets.length} column(s) were targeted"))
  fillRow D table exprs targets (List.replicate table.columns.length none)

section

variable (catalog : Catalog)

/-- A query an `INSERT` takes its rows from. -/
def insertSelect (targets : List Nat) (query : Query D) (binder : Binder D) :
    Except Error (InsertSource D × Binder D) := do
  let (body, binder) <- query.planQueryBody catalog [] binder
  match body with
  | .scalar .. => throw (.unsupported "INSERT ... SELECT needs a query with a FROM clause")
  | _ => do
      refuse (body.outputs.length != targets.length) (.type (s!"the SELECT returns " ++
        s!"{body.outputs.length} column(s) but {targets.length} column(s) were targeted"))
      return (.select body targets, binder)

/-- The source of an `INSERT`: only the body of its query says whether it is `VALUES`. -/
def planInsertSource (table : Table) (targets : List Nat) (binder : Binder D) :
    Option (Query D) -> Except Error (InsertSource D × Binder D)
  | none => .ok (.values [List.replicate table.columns.length none], binder)
  | some (.mk _ (.values rows) _ _ _) => do
      return (.values (<- rows.mapM (insertRow D table targets)), binder)
  | some query => insertSelect catalog targets query binder

/-- The queries nested in the expressions of a statement. -/
def planClauses : Clauses D -> Binder D -> Except Error (List (SubqueryBody D) × Binder D)
  | [], binder => .ok ([], binder)
  | (scope, query) :: rest, binder => do
      let (first, binder) <- query.planQueryBody catalog scope binder
      let (rest, binder) <- planClauses rest binder
      return (first :: rest, binder)

/-- The labels and the declared types of a body's columns. -/
def SubqueryBody.labelled (self : SubqueryBody D) : List (String × Option DataType) :=
  let labels := self.outputs.map (·.label)
  match self with
  | .select core .. => labels.mapIdx fun index label => (label, D.outputType core index)
  | _ => labels.map (·, none)

/-- `plan_select`, `plan_insert`, `plan_create_table_as_select`, and the queries nested in a
`plan_update` or a `plan_delete`. -/
def Statement.plan : Statement D -> Except Error (Plan D)
  | .query inner => do
      let (body, _) <- inner.planQueryBody catalog [] .new
      return .query body
  | .insert name columns source clauses => do
      let table <- catalog.requireTable name
      let targets <- insertTargets table columns
      let (source, binder) <- planInsertSource catalog table targets .new source
      let (clauses, _) <- planClauses catalog clauses binder
      return .insert table source clauses
  | .createTableAs name temporary declares inner => do
      refuse declares (.unsupported ("CREATE TABLE ... AS SELECT does not take an explicit " ++
        "column or constraint list, or STRICT"))
      let (body, _) <- inner.planQueryBody catalog [] .new
      let (table, _) <- planCreateTableAsSelect name temporary body.labelled
      return .createTable table body
  | .write clauses => do
      let (clauses, _) <- planClauses catalog clauses .new
      return .write clauses

end

/-! ## What the queries of a plan contribute -/

/-- Values put in the columns they belong to. -/
def place {α : Type} (width : Nat) (targets : List Nat) (values : List α) : Cells α :=
  (List.range width).map fun ordinal => (targets.zip values).lookup ordinal

/-- A cell, evaluated unless it is left to its default. -/
def evaluateCell (D : Dialect) : Option D.Bound -> Except Error (Option Value)
  | some bound => do return some (<- D.evaluate bound)
  | none => .ok none

/-- What the queries of a statement contribute: the rows it returns or supplies to the table
it writes, and what the queries nested in its expressions answer on a row. -/
structure Answer where
  rows : Except Error (List (Cells Value))
  nested : List Nested

variable (allowance : Nat)

/-- The rows an `INSERT` supplies to its table. -/
def InsertSource.rows (table : Table) : InsertSource D -> Except Error (List (Cells Value))
  | .values rows => rows.mapM fun cells => cells.mapM (evaluateCell D)
  | .select query targets => do
      return (<- query.run allowance ⟨none, []⟩).map (place table.columns.length targets)

def Plan.answer : Plan D -> Answer
  | .query body => ⟨do return (<- body.run allowance ⟨none, []⟩).map (·.map some), []⟩
  | .insert table source clauses =>
    ⟨source.rows allowance table, runNested allowance clauses ⟨none, []⟩⟩
  | .createTable table body =>
    ⟨(InsertSource.select body (List.range table.columns.length)).rows allowance table, []⟩
  | .write clauses => ⟨.ok [], runNested allowance clauses ⟨none, []⟩⟩

end InlaySql.Planner
