import InlaySql.Sql.Compare

/-!
# Expressions

The part of a plan's expressions the access paths look into: columns, literals and
parameters, `COLLATE`, the binary operators and `BETWEEN`. Every other construct is
a function of the row that the environment supplies. A comparison carries the collation
and the affinity its planner resolved.
-/

namespace InlaySql.Sql

open Lib

/-- A scalar expression. -/
inductive Expr where
  | literal (value : Value)
  | param (index : Nat)
  | column (ordinal : Nat)
  | binary (op : BinaryOp) (left right : Expr) (collation : Collation)
      (affinity : CompareAffinity)
  | collate (expr : Expr) (collation : Collation)
  | between (negated : Bool) (expr low high : Expr) (lowCollation highCollation : Collation)
      (lowAffinity highAffinity : CompareAffinity)
  | other (code : Nat) (affinity : Option CastType)
  deriving DecidableEq, Repr

/-- What an expression is evaluated in: the bound parameters, arithmetic and the other
operators, and the constructs that are functions of the row. -/
structure Env where
  numerals : Numerals
  params : List Value
  operate : BinaryOp -> Value -> Value -> Except Error Value
  other : Nat -> Row -> Except Error Value

namespace Expr

/-- `evaluate`. Both operands are evaluated, of `AND` and `OR` too. -/
def evaluate (env : Env) (row : Row) : Expr -> Except Error Value
  | .literal value => .ok value
  | .param index =>
    match env.params[index]? with
    | some value => .ok value
    | none => .error (.bind (s!"statement needs a parameter at position {index + 1}, but only " ++
        s!"{env.params.length} were bound"))
  | .column ordinal =>
    match row[ordinal]? with
    | some value => .ok value
    | none => .error (.corrupt (s!"expression references column {ordinal}, but the row has " ++
        s!"{row.length} value(s)"))
  | .binary op left right collation affinity => do
      let left <- left.evaluate env row
      let right <- right.evaluate env row
      match op with
      | .eq | .notEq | .lt | .ltEq | .gt | .gtEq =>
        env.numerals.compareCells op left right collation affinity
      | .and => return env.numerals.logicalAnd left right
      | .or => return env.numerals.logicalOr left right
      | op => env.operate op left right
  | .collate expr _ => expr.evaluate env row
  | .between negated expr low high lowCollation highCollation lowAffinity highAffinity => do
      let value <- expr.evaluate env row
      let low <- low.evaluate env row
      let high <- high.evaluate env row
      let lower <- env.numerals.compareCells .gtEq value low lowCollation lowAffinity
      let upper <- env.numerals.compareCells .ltEq value high highCollation highAffinity
      let within := env.numerals.logicalAnd lower upper
      return if negated then env.numerals.logicalNot within else within
  | .other code _ => env.other code row

/-- Whether a row passes a filter: it evaluates, and to something true. -/
def admits (env : Env) (filter : Expr) (row : Row) : Bool :=
  match filter.evaluate env row with
  | .ok value => env.numerals.isTruthy value
  | .error _ => false

def withoutCollate : Expr -> Expr
  | .collate expr _ => expr.withoutCollate
  | expr => expr

end Expr

/-! ## Affinity -/

def columnAffinity : DataType -> Option CastType
  | .integer => some .integer
  | .real => some .real
  | .text => some .text
  | .blob => some .blob
  | .numeric => some .numeric
  | .vector _ | .quantizedVector _ | .any => none

/-- The affinity of the column at an ordinal. -/
def Table.affinityAt (self : Table) (ordinal : Nat) : Option CastType :=
  self.columns[ordinal]?.bind fun column => columnAffinity column.ty

namespace Expr

/-- `affinity_of`: a column, a `CAST` and a captured column carry one. -/
def affinityOf (table : Table) : Expr -> Option CastType
  | .column ordinal => table.affinityAt ordinal
  | .collate expr _ => expr.affinityOf table
  | .other _ affinity => affinity
  | _ => none

end Expr

def CastType.isNumeric : CastType -> Bool
  | .integer | .real | .numeric => true
  | .text | .blob => false

def combineAffinity (left right : Option CastType) : CompareAffinity :=
  if left.any (·.isNumeric) || right.any (·.isNumeric) then .numeric
  else if left == some .text || right == some .text then .text
  else .none

def compareAffinity (table : Table) (left right : Expr) : CompareAffinity :=
  combineAffinity (left.affinityOf table) (right.affinityOf table)

def BinaryOp.isComparison : BinaryOp -> Bool
  | .eq | .notEq | .lt | .ltEq | .gt | .gtEq => true
  | _ => false

/-- The expression is one the planner builds over a table: each comparison carries the
affinity of its operands, and the literals are 64-bit. -/
def Expr.Planned (table : Table) : Expr -> Prop
  | .literal value => value.Fits
  | .param _ | .column _ | .other _ _ => True
  | .binary op left right _ affinity =>
    left.Planned table ∧ right.Planned table ∧
      (op.isComparison = true -> affinity = compareAffinity table left right)
  | .collate expr _ => expr.Planned table
  | .between _ expr low high _ _ lowAffinity highAffinity =>
    expr.Planned table ∧ low.Planned table ∧ high.Planned table ∧
      lowAffinity = compareAffinity table expr low ∧
        highAffinity = compareAffinity table expr high

end InlaySql.Sql
