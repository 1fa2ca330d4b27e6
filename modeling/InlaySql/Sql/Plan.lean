import InlaySql.Sql.Join

/-!
# Plans

What the engine is handed: statements that write rows, statements that change the
schema, queries and transaction control, each with its names and ordinals resolved. A
query is what it does to the engine: it may ask for the build half of a hash join, any
number of times, and computes its rows from those builds and from what it reads.
-/

namespace InlaySql.Sql

open Lib

/-- The random numbers still to be drawn. -/
abbrev Rng := Nat -> Int

/-- One output item of a `RETURNING` clause. -/
inductive SelectItem where
  | column (index : Nat) (label : String)
  | expr (expr : Expr) (label : String)
  | score (label : String)
  deriving DecidableEq, Repr

/-- A query. The instant and the random numbers are those of its statement. -/
inductive Query where
  | answer (rows : Storage -> Catalog -> Int -> Rng -> Except Error (List Row) × Rng)
  | hashJoin (shape : Storage -> Catalog -> JoinShape) (rest : HashJoinTable -> Query)

/-- `ON CONFLICT ... DO UPDATE`: assignments and filter see the stored row followed by
the proposed one. -/
structure ConflictUpdate where
  assignments : List (Nat × Expr)
  filter : Option Expr
  deriving DecidableEq, Repr

/-- What to do about a row that collides with one already stored. -/
inductive ConflictAction where
  | abort
  | ignore
  | replace
  | update (update : ConflictUpdate)
  deriving DecidableEq, Repr

/-- A conflict policy: the constraint it answers for, and whether it answers for
`NOT NULL` and `CHECK` too. -/
structure OnConflict where
  target : Option (List Nat)
  action : ConflictAction
  coversEveryConstraint : Bool
  deriving DecidableEq, Repr

/-- `OnConflict::abort`. -/
def OnConflict.abort : OnConflict := ⟨none, .abort, true⟩

/-- Where the rows of an `INSERT` come from. A cell the statement did not name is `none`. -/
inductive InsertSource where
  | values (rows : List (List (Option Expr)))
  | select (query : Query) (targets : List Nat)

structure InsertPlan where
  table : String
  source : InsertSource
  onConflict : OnConflict
  returning : Option (List SelectItem)

structure UpdatePlan where
  table : String
  assignments : List (Nat × Expr)
  filter : Option Expr
  returning : Option (List SelectItem)
  deriving DecidableEq, Repr

structure DeletePlan where
  table : String
  filter : Option Expr
  returning : Option (List SelectItem)
  deriving DecidableEq, Repr

structure CreateTablePlan where
  table : Table
  constraints : TableConstraints
  ifNotExists : Bool
  asSelect : Option Query

structure DropTablePlan where
  name : String
  ifExists : Bool
  deriving DecidableEq, Repr

inductive AlterAction where
  | addColumn (column : Column)
  | renameTable (target : String)
  | renameColumn (source target : String)
  | dropColumn (column : String)
  deriving DecidableEq, Repr

structure AlterTablePlan where
  table : String
  action : AlterAction
  deriving DecidableEq, Repr

structure CreateIndexPlan where
  name : String
  table : String
  columns : List Nat
  kind : IndexKind
  unique : Bool
  collations : List Collation
  metric : VectorMetric
  deriving DecidableEq, Repr

/-- A `UNIQUE` constraint no ordered index can cover. -/
structure CreateUniqueIndexPlan where
  name : String
  table : String
  columns : List String
  deriving DecidableEq, Repr

inductive Plan where
  | createTable (plan : CreateTablePlan)
  | dropTable (plan : DropTablePlan)
  | alterTable (plan : AlterTablePlan)
  | createIndex (plan : CreateIndexPlan)
  | createUniqueIndex (plan : CreateUniqueIndexPlan)
  | dropIndex (name : String)
  | insert (plan : InsertPlan)
  | update (plan : UpdatePlan)
  | delete (plan : DeletePlan)
  | select (query : Query)
  | begin
  | commit
  | rollback
  | savepoint (name : String)
  | releaseSavepoint (name : String)
  | rollbackToSavepoint (name : String)

/-- A prepared statement: its plan, the tables it was resolved against and the number of
its placeholders. -/
structure Statement where
  plan : Plan
  schema : List Table
  parameters : Nat

namespace Statement

end Statement

end InlaySql.Sql
