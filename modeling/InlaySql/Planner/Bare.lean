import InlaySql.Planner.Meaning

/-!
# Bare recursive entries

An entry of a `WITH RECURSIVE` list that calls itself is planned from the arms of its body
alone. Nothing is lost by that when its query node carries nothing of its own and the queries
nested in its last arm leave its name alone. The names a query reads and this condition are
read off the syntax.
-/

namespace InlaySql.Planner

open Lib Sql

variable {D : Dialect}

/-! ## The names a query reads -/

mutual

/-- Every name in a `FROM`, of the query and of the queries nested in it. -/
def Query.names : Query D -> List String
  | .mk withClause body orderBy limitClause _ =>
    withClause.names ++ body.names ++ orderBy.names ++ limitClause.names

def With.names : With D -> List String
  | .absent => []
  | .tables _ cteTables => cteNames cteTables

def cteNames : List (Cte D) -> List String
  | [] => []
  | cte :: rest => cte.names ++ cteNames rest

def Cte.names : Cte D -> List String
  | .mk _ _ query _ => query.names

def SetExpr.names : SetExpr D -> List String
  | .select arm => arm.names
  | .query inner => inner.names
  | .setOperation left _ _ right => left.names ++ right.names
  | .values _ | .other _ => []

def Select.names : Select D -> List String
  | .mk _ sources nested => directNames sources ++ sourceNames sources ++ nestedNames nested

/-- The names a source reads below it. -/
def TableFactor.innerNames : TableFactor D -> List String
  | .derived _ subquery _ _ => subquery.names
  | .table .. | .nestedJoin | .other _ => []

def sourceNames : List (TableFactor D) -> List String
  | [] => []
  | source :: rest => source.innerNames ++ sourceNames rest

def nestedNames : List (Query D) -> List String
  | [] => []
  | query :: rest => query.names ++ nestedNames rest

def OrderBy.names : OrderBy D -> List String
  | .absent | .all => []
  | .expressions _ nested _ => nestedNames nested

def LimitClause.names : LimitClause D -> List String
  | .absent => []
  | .limitOffset limit offset _ _ => limit.names ++ offset.names
  | .offsetCommaLimit offset limit => offset.names ++ limit.names

def RowCount.names : RowCount D -> List String
  | .subquery _ query => query.names
  | .absent | .value .. | .other _ => []

end

/-- The names a `SELECT` reads below its own `FROM`. -/
def Select.innerNames : Select D -> List String
  | .mk _ sources nested => sourceNames sources ++ nestedNames nested

/-! ## The condition -/

/-- A query node that carries nothing but its body. -/
def Query.carriesNothing : Query D -> Bool
  | .mk .absent _ .absent .absent extras => extras == .none
  | _ => false

/-- An entry that is planned as recursive reads its name in the `FROM` of its last arm only,
and its query node carries nothing of its own. -/
def Query.bareEntry (name : String) (query : Query D) : Bool :=
  match query.body.step with
  | some step =>
    !step.innerNames.any (sameName · name) &&
      (!step.directNames.any (sameName · name) || query.carriesNothing)
  | none => true

mutual

/-- Every entry of every `WITH RECURSIVE` list in a query is bare. -/
def Query.bare : Query D -> Bool
  | .mk withClause body orderBy limitClause _ =>
    withClause.bare && body.bare && orderBy.bare && limitClause.bare

def With.bare : With D -> Bool
  | .absent => true
  | .tables recursive cteTables => cteTablesBare cteTables recursive

def cteTablesBare : List (Cte D) -> Bool -> Bool
  | [], _ => true
  | cte :: rest, recursive => cte.bare recursive && cteTablesBare rest recursive

def Cte.bare : Cte D -> Bool -> Bool
  | .mk name _ query _, recursive => query.bare && (!recursive || query.bareEntry name)

def SetExpr.bare : SetExpr D -> Bool
  | .select arm => arm.bare
  | .query inner => inner.bare
  | .setOperation left _ _ right => left.bare && right.bare
  | .values _ | .other _ => true

def Select.bare : Select D -> Bool
  | .mk _ sources nested => sourcesBare sources && nestedBare nested

def TableFactor.bare : TableFactor D -> Bool
  | .derived _ subquery _ _ => subquery.bare
  | .table .. | .nestedJoin | .other _ => true

def sourcesBare : List (TableFactor D) -> Bool
  | [] => true
  | source :: rest => source.bare && sourcesBare rest

def nestedBare : List (Query D) -> Bool
  | [] => true
  | query :: rest => query.bare && nestedBare rest

def OrderBy.bare : OrderBy D -> Bool
  | .absent | .all => true
  | .expressions _ nested _ => nestedBare nested

def LimitClause.bare : LimitClause D -> Bool
  | .absent => true
  | .limitOffset limit offset _ _ => limit.bare && offset.bare
  | .offsetCommaLimit offset limit => offset.bare && limit.bare

def RowCount.bare : RowCount D -> Bool
  | .subquery _ query => query.bare
  | .absent | .value .. | .other _ => true

end

/-- The arms of a compound, from left to right. -/
def SetExpr.arms : SetExpr D -> List (Select D)
  | .select arm => [arm]
  | .setOperation left _ _ right => left.arms ++ right.arms
  | .query _ | .values _ | .other _ => []

end InlaySql.Planner
