import InlaySql.Sql.Expr

/-!
# Queries as the parser hands them over

A query node is its `WITH` list, its body, its `ORDER BY`, its `LIMIT` and the clauses of
other dialects the parser also reads. What a `SELECT` holds beside its sources and the
queries nested in it is of no interest here: a dialect says what it is, how it is resolved
and what it answers, and everything below is stated for every dialect. A parameter of the
statement is the value bound to it.
-/

namespace InlaySql.Planner

open Lib Sql

/-- What an enclosing query reads of one output column: its label, its collation and whether
that one is explicit, and its affinity. -/
structure Output where
  label : String
  collation : Option (Collation × Bool)
  affinity : Option CastType
  deriving DecidableEq, Repr

/-- One source of a scope. -/
structure ScopeSource where
  table : Table
  aliasName : Option String
  derived : Bool
  deriving DecidableEq, Repr

/-- The sources a name is looked up in, the innermost query first. -/
abbrev Scope := List (List ScopeSource)

/-- What one source gives a `SELECT`: a stored table to read, or rows. -/
inductive Relation where
  | stored (table : Table)
  | rows (rows : List Row)
  deriving DecidableEq, Repr

/-- What an expression asks of a query nested in it: its rows, given the row it is evaluated
on. -/
abbrev Nested := Row -> Except Error (List Row)

/-- A sort key of one row. A score is an `f32`, given as bits. -/
inductive SortKey where
  | value (value : Value)
  | score (bits : UInt32)
  deriving DecidableEq, Repr

/-- The language queries are built over, and the storage they are run on. -/
structure Dialect where
  /-- What a `SELECT` holds beside its sources and its nested queries. -/
  Core : Type
  /-- An `ORDER BY` expression. -/
  Term : Type
  /-- A value as it is written in `VALUES` or `LIMIT`. -/
  Operand : Type
  /-- A core with its names resolved. -/
  CorePlan : Type
  /-- An `ORDER BY` expression with its names resolved. -/
  Key : Type
  /-- A written value, bound. -/
  Bound : Type
  /-- A row held before it is projected. -/
  Held : Type
  /-- `reject_unsupported_clauses` and `resolve_distinct`. -/
  rejectUnsupportedClauses : Core -> Except Error Unit
  /-- The core has a `WHERE`, `GROUP BY`, `HAVING` or `WINDOW` clause. -/
  needsFrom : Core -> Bool
  /-- Resolve a core without a `FROM`, given what its nested queries project. -/
  planScalar : Core -> Scope -> List (List Output) -> Except Error CorePlan
  /-- Resolve a core against the sources of its query. -/
  planCore : Core -> Scope -> List (List Output) -> Except Error CorePlan
  /-- Resolve an `ORDER BY` expression, given what the queries nested in the clause project. -/
  resolveKey : CorePlan -> Scope -> List (List Output) -> Term -> Except Error Key
  /-- `order_key_collation`. -/
  keyCollation : CorePlan -> Scope -> Key -> Collation
  /-- The aggregates and windows of the sort keys, added. -/
  collect : CorePlan -> List Key -> CorePlan
  outputs : CorePlan -> List Output
  /-- The declared type of an output column that is a stored column. -/
  outputType : CorePlan -> Nat -> Option DataType
  /-- How many enclosing queries up its expressions read. -/
  reach : CorePlan -> Nat
  /-- It has aggregates or a `GROUP BY`. -/
  folds : CorePlan -> Bool
  windowed : CorePlan -> Bool
  /-- It holds all its rows before it projects one. -/
  blocking : CorePlan -> Bool
  scored : CorePlan -> Bool
  /-- The key that sorts by score. -/
  scoreKey : Key
  peelCollation : Term -> Except Error (Term × Option Collation)
  /-- The text of a number literal, and the position it is. -/
  number : Term -> Option (String × Option Nat)
  /-- The name of a bare identifier. -/
  identifier : Term -> Option String
  bindValue : Operand -> Except Error Bound
  /-- A literal fitted to its column, a parameter left as it is. -/
  fitLiteral : Bound -> Column -> Bool -> Except Error Bound
  evaluate : Bound -> Except Error Value
  /-- The one row of a core without a `FROM`, given the rows of the enclosing queries. -/
  runScalar : CorePlan -> List Nested -> List Row -> Except Error Row
  /-- The rows a core holds, given how many are fetched and whether they will be sorted. -/
  hold : CorePlan -> Option Nat -> Bool -> List Relation -> List Nested -> List Row ->
    Except Error (List Held)
  rowId : Held -> Nat
  sortKey : CorePlan -> Key -> List Nested -> List Row -> Held -> Except Error SortKey
  project : CorePlan -> List Nested -> List Row -> Held -> Except Error Row
  /-- `mem_cmp`. -/
  compare : Collation -> Value -> Value -> Ordering
  compareScores : UInt32 -> UInt32 -> Ordering
  /-- `as i64`, of a double. -/
  truncate : F64 -> Int

/-- One term of an `ORDER BY`. -/
structure OrderTerm (D : Dialect) where
  expr : D.Term
  asc : Option Bool
  nullsFirst : Option Bool
  withFill : Bool

/-- The clauses of a query node that belong to other dialects, by whether they are there. -/
structure Extras where
  fetch : Bool
  locks : Bool
  forClause : Bool
  settings : Bool
  formatClause : Bool
  pipeOperators : Bool
  deriving DecidableEq, Repr

/-- A query node without any of them. -/
def Extras.none : Extras := ⟨false, false, false, false, false, false⟩

inductive SetOperator where
  | union
  | except
  | intersect
  | minus
  deriving DecidableEq, Repr

inductive SetQuantifier where
  | all
  | distinct
  | byName
  | allByName
  | distinctByName
  | none
  deriving DecidableEq, Repr

/-- One name of a column alias list, typed or not. -/
structure AliasColumn where
  name : String
  typed : Bool
  deriving DecidableEq, Repr

mutual

/-- A query node. -/
inductive Query (D : Dialect) where
  | mk (withClause : With D) (body : SetExpr D) (orderBy : OrderBy D)
      (limitClause : LimitClause D) (extras : Extras)

/-- A `WITH` clause, if there is one. -/
inductive With (D : Dialect) where
  | absent
  | tables (recursive : Bool) (cteTables : List (Cte D))

/-- `name (columns) AS (query)`. -/
inductive Cte (D : Dialect) where
  | mk (name : String) (columns : List AliasColumn) (query : Query D) (materialized : Bool)

/-- The body of a query. -/
inductive SetExpr (D : Dialect) where
  | select (select : Select D)
  | query (inner : Query D)
  | setOperation (left : SetExpr D) (op : SetOperator) (quantifier : SetQuantifier)
      (right : SetExpr D)
  | values (rows : List (List D.Operand))
  | other (text : String)

/-- A `SELECT`: its sources in written order, and the queries nested in its expressions. -/
inductive Select (D : Dialect) where
  | mk (core : D.Core) (sources : List (TableFactor D)) (nested : List (Query D))

/-- One source of a `FROM`. -/
inductive TableFactor (D : Dialect) where
  | table (name : String) (aliasName : Option String) (args : Bool)
  | derived (lateral : Bool) (subquery : Query D) (aliasName : Option String) (columns : Bool)
  | nestedJoin
  | other (text : String)

/-- An `ORDER BY` clause, if there is one, with the queries nested in its terms. -/
inductive OrderBy (D : Dialect) where
  | absent
  | all
  | expressions (terms : List (OrderTerm D)) (nested : List (Query D)) (interpolate : Bool)

/-- A `LIMIT` clause, if there is one. -/
inductive LimitClause (D : Dialect) where
  | absent
  | limitOffset (limit offset : RowCount D) (offsetRows limitBy : Bool)
  | offsetCommaLimit (offset limit : RowCount D)

/-- An operand of a `LIMIT` clause, if there is one, with its text. -/
inductive RowCount (D : Dialect) where
  | absent
  | value (text : String) (operand : D.Operand)
  | subquery (text : String) (query : Query D)
  | other (text : String)

end

def Cte.name {D : Dialect} : Cte D -> String
  | .mk name .. => name

namespace SetOperator

def name : SetOperator -> String
  | .union => "UNION"
  | .except => "EXCEPT"
  | .intersect => "INTERSECT"
  | .minus => "MINUS"

end SetOperator

namespace SetQuantifier

def name : SetQuantifier -> String
  | .all => "ALL"
  | .distinct => "DISTINCT"
  | .byName => "BY NAME"
  | .allByName => "ALL BY NAME"
  | .distinctByName => "DISTINCT BY NAME"
  | .none => ""

end SetQuantifier

end InlaySql.Planner
