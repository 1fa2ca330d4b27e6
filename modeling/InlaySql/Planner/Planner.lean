import InlaySql.Planner.Body

/-!
# Planning a query

The planning functions, with the state they share: the `WITH` entries planned so far, one
frame for each clause around, the names each clause declares, and the recursive entry whose
step is being resolved. An arm of a compound and an `ORDER BY` or `LIMIT` clause are handed
on as what planning them does.
-/

namespace InlaySql.Planner

open Lib Sql

variable {D : Dialect}

/-! ## The binder -/

/-- One planned entry of a `WITH` clause. -/
structure CteEntry (D : Dialect) where
  name : String
  table : Table
  body : SubqueryBody D

/-- The frames of the enclosing `WITH` clauses, the innermost first, and the recursive entry
being resolved, if any. -/
structure Binder (D : Dialect) where
  ctes : List (List (CteEntry D))
  cteReserved : List (List String)
  recursiveSelf : Option (String × Table)
  recursiveSelfUsed : Bool

namespace Binder

/-- A binder for one statement. -/
def new : Binder D := ⟨[], [], none, false⟩

def pushFrame (self : Binder D) (reserved : List String) : Binder D :=
  { self with ctes := [] :: self.ctes, cteReserved := reserved :: self.cteReserved }

def popFrame (self : Binder D) : Binder D :=
  { self with ctes := self.ctes.tail, cteReserved := self.cteReserved.tail }

/-- One more entry in the innermost frame. -/
def pushEntry (self : Binder D) (entry : CteEntry D) : Binder D :=
  { self with ctes := (self.ctes.headD [] ++ [entry]) :: self.ctes.tail }

end Binder

/-- The end of a clause's scope. -/
def With.popFrame (self : With D) (binder : Binder D) : Binder D :=
  match self with
  | .absent => binder
  | .tables .. => binder.popFrame

/-- `resolve_cte`, over the frames. -/
def resolveCte (name : String) : List (List (CteEntry D)) -> List (List String) ->
    Except Error (Option (CteEntry D))
  | resolved :: frames, reserved :: names =>
    match resolved.find? (sameName ·.name name) with
    | some entry => .ok (some entry)
    | none =>
      if reserved.any (sameName · name) then
        .error (.unsupported (s!"`{name}` references a CTE not yet defined at this point " ++
          "in its WITH list (a self- or forward-reference); SQLite allows this and resolves " ++
          "it lazily, but this engine plans a WITH list strictly in order and does not"))
      else resolveCte name frames names
  | _, _ => .ok none

/-- Go on unless refused. -/
def refuse (refused : Bool) (error : Error) : Except Error Unit :=
  if refused then .error error else .ok ()

def applyColumnAliases (table : Table) (columns : List AliasColumn) : Except Error Table := do
  if columns.isEmpty then return table
  refuse (columns.length != table.columns.length) (.type (s!"table `{table.name}` has " ++
    s!"{table.columns.length} column(s) but {columns.length} alias(es) were given"))
  refuse (columns.any (·.typed)) (.unsupported "a typed column alias is not supported")
  return { table with
    columns := table.columns.zipWith (fun column given => { column with name := given.name }) columns }

/-- The clauses of other dialects, refused. -/
def Extras.refuse (self : Extras) : Except Error Unit := do
  Planner.refuse self.fetch (.unsupported "FETCH is not supported; use LIMIT")
  Planner.refuse self.locks (.unsupported "FOR UPDATE / FOR SHARE is not supported")
  Planner.refuse (self.forClause || self.settings || self.formatClause)
    (.unsupported "FOR XML/JSON, SETTINGS and FORMAT are not supported")
  Planner.refuse self.pipeOperators (.unsupported "pipe operators are not supported")

def resolveSetOp : SetOperator -> SetQuantifier -> Except Error SetOp
  | .union, .all => .ok .unionAll
  | .union, .none => .ok .union
  | .intersect, .none => .ok .intersect
  | .except, .none => .ok .except
  | .intersect, .all => .error (.unsupported
      "INTERSECT ALL is not supported; SQLite has no ALL form of INTERSECT")
  | .except, .all => .error (.unsupported
      "EXCEPT ALL is not supported; SQLite has no ALL form of EXCEPT")
  | .minus, _ => .error (.unsupported "MINUS is not in SQLite's dialect; use EXCEPT")
  | op, quantifier => .error (.unsupported s!"`{op.name} {quantifier.name}` is not supported")

/-! ## `ORDER BY` and `LIMIT` -/

/-- An `ORDER BY` clause: its terms, unless it is `ORDER BY ALL`, and what planning the
queries nested in them does. -/
structure OrderClause (D : Dialect) where
  terms : Option (List (OrderTerm D))
  interpolate : Bool
  planNested : Scope -> Binder D -> Except Error (List (SubqueryBody D) × Binder D)

/-- What resolving a `LIMIT` clause does: its limit and its offset. -/
abbrev LimitPlanner (D : Dialect) :=
  Scope -> Binder D -> Except Error ((Count D × Count D) × Binder D)

/-- The terms of an `ORDER BY` clause. -/
def OrderClause.listed (self : OrderClause D) : Except Error (List (OrderTerm D)) :=
  match self.terms with
  | none => .error (.unsupported "ORDER BY ALL is not supported")
  | some terms => do
      refuse self.interpolate (.unsupported "ORDER BY ... INTERPOLATE is not supported")
      return terms

/-- One term, with its key resolved under a collation unless it names one. -/
def OrderTerm.resolve {κ : Type} (term : OrderTerm D) (resolveKey : D.Term -> Except Error κ)
    (collation : κ -> Collation) : Except Error (Order κ) := do
  refuse term.withFill (.unsupported "ORDER BY ... WITH FILL is not supported")
  let desc := !term.asc.getD true
  let (inner, explicit) <- D.peelCollation term.expr
  let key <- resolveKey inner
  return ⟨key, explicit.getD (collation key), desc, term.nullsFirst.getD !desc⟩

/-- The terms of an `ORDER BY`, in order. -/
def resolveTerms {κ : Type} (terms : List (OrderTerm D)) (resolveKey : D.Term -> Except Error κ)
    (collation : κ -> Collation) : Except Error (List (Order κ)) :=
  terms.mapM fun term => term.resolve resolveKey collation

/-- `resolve_order_by`, with the bodies of the nested queries. -/
def resolveOrderBy (order : Option (OrderClause D)) (core : D.CorePlan) (scope : Scope)
    (binder : Binder D) :
    Except Error ((List (Order D.Key) × List (SubqueryBody D)) × Binder D) :=
  match order with
  | none => .ok (([], []), binder)
  | some clause => do
      let terms <- clause.listed
      let (nested, binder) <- clause.planNested scope binder
      let keys <- resolveTerms terms (D.resolveKey core scope (nested.map (·.outputs)))
        (D.keyCollation core scope)
      return ((keys, nested), binder)

/-- A retrieval query without an `ORDER BY` lists its best matches first. -/
def withScoreOrder (core : D.CorePlan) (order : List (Order D.Key)) : List (Order D.Key) :=
  if order.isEmpty && D.scored core then [⟨D.scoreKey, .binary, true, false⟩] else order

/-- `compound_order_key`: an output column, by position or by label. -/
def compoundOrderKey (columns : List Column) (term : D.Term) : Except Error Nat :=
  match D.number term with
  | some (text, none) => .error (.type s!"ORDER BY `{text}` is not a result column")
  | some (_, some position) =>
    if position = 0 ∨ columns.length < position then
      .error (.catalog s!"ORDER BY position {position} is not between 1 and {columns.length}")
    else .ok (position - 1)
  | none =>
    match (D.identifier term).bind fun name => columns.findIdx? (sameName ·.name name) with
    | some index => .ok index
    | none => .error (.catalog ("ORDER BY over a compound query may only name an output " ++
        "column or a 1-based ordinal"))

/-- The terms of a compound's `ORDER BY`: output columns, under their collations. -/
def resolveCompoundTerms (terms : List (OrderTerm D)) (columns : List Column) :
    Except Error (List (Order Nat)) :=
  resolveTerms terms (compoundOrderKey columns) fun key =>
    columns[key]?.elim .binary (·.collation)

def resolveCompoundOrderBy (order : Option (OrderClause D)) (columns : List Column) :
    Except Error (List (Order Nat)) :=
  match order with
  | none => .ok []
  | some clause => do
      let terms <- clause.listed
      resolveCompoundTerms terms columns

def resolveLimit (limit : Option (LimitPlanner D)) (scope : Scope) (binder : Binder D) :
    Except Error ((Count D × Count D) × Binder D) :=
  match limit with
  | none => .ok ((.absent, .absent), binder)
  | some planner => planner scope binder

/-! ## Compounds -/

/-- One arm of a compound, as what planning it does. -/
abbrev Arm (D : Dialect) := Scope -> Binder D -> Except Error (SubqueryBody D × Binder D)

/-- The arms of a compound in written order: the first, and what each operator adds. -/
abbrev Chain (D : Dialect) := Arm D × List (SetOp × Arm D)

/-- The rest of `fold_compound_arms`, to the right of a body. -/
def foldArms (parent : Scope) : SubqueryBody D -> List (SetOp × Arm D) -> Binder D ->
    Except Error (SubqueryBody D × Binder D)
  | body, [], binder => .ok (body, binder)
  | body, (op, arm) :: rest, binder => do
      let (right, binder) <- arm parent binder
      refuse (body.outputs.length != right.outputs.length) (.type (s!"SELECTs to the left and " ++
        s!"right of {op.name} do not have the same number of result columns " ++
        s!"({body.outputs.length} vs {right.outputs.length})"))
      foldArms parent (.setOp op body right (collationsOf body.outputs) [] .absent .absent) rest
        binder

def foldCompoundArms (first : Arm D) (rest : List (SetOp × Arm D)) (parent : Scope)
    (binder : Binder D) : Except Error (SubqueryBody D × Binder D) := do
  let (body, binder) <- first parent binder
  foldArms parent body rest binder

/-- The clauses of a compound, put on the operator that binds last. -/
def SubqueryBody.withClauses (self : SubqueryBody D) (order : List (Order Nat))
    (limit offset : Count D) : SubqueryBody D :=
  match self with
  | .setOp op left right collations _ _ _ => .setOp op left right collations order limit offset
  | body => body

/-- `plan_compound`, once the compound is flattened. -/
def planCompound (flattened : Except Error (Chain D)) (order : Option (OrderClause D))
    (limit : Option (LimitPlanner D)) (parent : Scope) (binder : Binder D) :
    Except Error (SubqueryBody D × Binder D) := do
  let (first, rest) <- flattened
  let (body, binder) <- foldCompoundArms first rest parent binder
  let synthetic <- derivedTable none body.outputs
  let order <- resolveCompoundOrderBy order synthetic.columns
  let ((limit, offset), binder) <- resolveLimit limit [[⟨synthetic, none, true⟩]] binder
  return (body.withClauses order limit offset, binder)

/-- Two flattened sides of an operator. -/
def joinArms (left : Except Error (Chain D)) (op : Except Error SetOp)
    (right : Except Error (Chain D)) : Except Error (Chain D) := do
  let (first, before) <- left
  let op <- op
  let (next, after) <- right
  return (first, before ++ (op, next) :: after)

/-- Refuse a step that folds the rows it sees. -/
def requirePlainStep (name : String) : SubqueryBody D -> Except Error Unit
  | .select core .. => do
      refuse (D.folds core) (.unsupported (s!"the recursive term of `{name}` may not use an " ++
        "aggregate function; a step only ever sees the previous step's new rows, never the " ++
        "whole table an aggregate would need"))
      refuse (D.windowed core) (.unsupported (s!"the recursive term of `{name}` may not use a " ++
        "window function, for the same reason it may not use an aggregate"))
  | _ => .ok ()

/-- Whether the operator before the step keeps duplicates. -/
def recursiveAll (name : String) : SetOp -> Except Error Bool
  | .unionAll => .ok true
  | .union => .ok false
  | other => .error (.unsupported (s!"the recursive term of `{name}` must be combined with " ++
      s!"UNION or UNION ALL, not {other.name}"))

/-- `try_plan_recursive_cte`, from the flattened body of the entry's query. -/
def tryPlanRecursiveCte (name : String) (columns : List AliasColumn)
    (flattened : Except Error (Chain D)) (binder : Binder D) :
    Except Error (Option (SubqueryBody D) × Binder D) :=
  match flattened with
  | .error _ => .ok (none, binder)
  | .ok (first, rest) =>
    match rest.getLast? with
    | none => .ok (none, binder)
    | some (lastOp, last) => do
        let (seed, binder) <- foldCompoundArms first rest.dropLast [] binder
        let seedTable <- applyColumnAliases (<- derivedTable none seed.outputs) columns
        let (step, planned) <- last [] { binder with
          recursiveSelf := some (name, seedTable), recursiveSelfUsed := false }
        let binder := { planned with
          recursiveSelf := binder.recursiveSelf, recursiveSelfUsed := binder.recursiveSelfUsed }
        if planned.recursiveSelfUsed then
          let all <- recursiveAll name lastOp
          requirePlainStep name step
          refuse (seed.outputs.length != step.outputs.length) (.type (s!"the recursive term " ++
            s!"of `{name}` does not have the same number of result columns as its seed " ++
            s!"({step.outputs.length} vs {seed.outputs.length})"))
          return (some (.recursive seed step all (collationsOf seed.outputs)), binder)
        else return (none, binder)

/-- An entry of a list without `RECURSIVE` is never tried as recursive. -/
def attemptRecursive (withRecursive : Bool) (name : String) (columns : List AliasColumn)
    (flattened : Except Error (Chain D)) (binder : Binder D) :
    Except Error (Option (SubqueryBody D) × Binder D) :=
  if withRecursive then tryPlanRecursiveCte name columns flattened binder
  else .ok (none, binder)

/-- The recursive plan of an entry, or else its ordinary one. -/
def orPlan (attempted : Option (SubqueryBody D) × Binder D)
    (plan : Binder D -> Except Error (SubqueryBody D × Binder D)) :
    Except Error (SubqueryBody D × Binder D) :=
  match attempted.1 with
  | some body => .ok (body, attempted.2)
  | none => plan attempted.2

/-! ## Sources -/

/-- A source and its alias. -/
abbrev Sourced (D : Dialect) := FromItem D × Option String

/-- What a source presents to the scope of its query. -/
def scopeSource : Sourced D -> ScopeSource
  | (.stored table, name) => ⟨table, name, false⟩
  | (.derived table _, name) => ⟨table, name, true⟩

/-- A `WITHOUT ROWID` table is read alone. -/
def refuseKeyedJoin (sources : List (Sourced D)) : Except Error Unit :=
  match sources.find? fun source =>
    !(scopeSource source).derived && (scopeSource source).table.withoutRowid with
  | some source => refuse (1 < sources.length) (.unsupported (s!"joining WITHOUT ROWID table " ++
      s!"`{(scopeSource source).table.name}` with anything else is not supported yet"))
  | none => .ok ()

section

variable (catalog : Catalog)

/-- A name in a `FROM`: an entry of a `WITH` clause, or else a stored table. -/
def resolveNamed (name : String) (binder : Binder D) : Except Error (FromItem D) := do
  match <- resolveCte name binder.ctes binder.cteReserved with
  | some entry => return .derived entry.table entry.body
  | none => return .stored (<- catalog.requireTable name)

/-- A table name in a `FROM`: the recursive entry's own name comes first. -/
def pushNamed (name : String) (binder : Binder D) : Except Error (FromItem D × Binder D) :=
  match binder.recursiveSelf with
  | some (selfName, selfTable) =>
    if sameName name selfName then do
      refuse binder.recursiveSelfUsed (.unsupported (s!"`{name}` may be referenced only once " ++
        "in the FROM clause of a recursive common table expression's recursive term; SQLite " ++
        "refuses a second occurrence too, whether repeated or nested in a subquery"))
      return (.derived selfTable (.recursiveSelf selfTable),
        { binder with recursiveSelfUsed := true })
    else do return (<- resolveNamed catalog name binder, binder)
  | none => do return (<- resolveNamed catalog name binder, binder)

mutual

def Query.planQueryBody : Query D -> Scope -> Binder D ->
    Except Error (SubqueryBody D × Binder D)
  | .mk withClause body orderBy limitClause extras, parent, binder => do
      extras.refuse
      let binder <- withClause.planCtes binder
      let (planned, binder) <- body.planBody orderBy.clause limitClause.planner parent binder
      return (planned, withClause.popFrame binder)

def With.planCtes : With D -> Binder D -> Except Error (Binder D)
  | .absent, binder => .ok binder
  | .tables recursive cteTables, binder =>
    planCteTables cteTables recursive (binder.pushFrame (cteTables.map Cte.name))

def planCteTables : List (Cte D) -> Bool -> Binder D -> Except Error (Binder D)
  | [], _, binder => .ok binder
  | cte :: rest, recursive, binder => do
      planCteTables rest recursive (<- cte.planOneCte recursive binder)

def Cte.planOneCte : Cte D -> Bool -> Binder D -> Except Error (Binder D)
  | .mk name columns query materialized, withRecursive, binder => do
      refuse materialized (.unsupported
        "AS MATERIALIZED / AS NOT MATERIALIZED is not in SQLite's dialect")
      let attempted <- attemptRecursive withRecursive name columns query.flattenBody binder
      let (body, binder) <- orPlan attempted fun binder => query.planQueryBody [] binder
      let table <- applyColumnAliases (<- derivedTable (some name) body.outputs) columns
      return binder.pushEntry ⟨name, table, body⟩

/-- The dispatch of `plan_query_body` on the body. -/
def SetExpr.planBody : SetExpr D -> Option (OrderClause D) -> Option (LimitPlanner D) -> Scope ->
    Binder D -> Except Error (SubqueryBody D × Binder D)
  | .select select, order, limit, parent, binder =>
    select.planSelectArm order limit parent binder
  | .setOperation left op quantifier right, order, limit, parent, binder =>
    planCompound (joinArms left.flattenCompound (resolveSetOp op quantifier)
      right.flattenCompound) order limit parent binder
  | .query inner, order, limit, parent, binder => do
      refuse (order.isSome || limit.isSome) (.unsupported ("ORDER BY or LIMIT outside a " ++
        "parenthesised query is not supported; write them inside the parentheses"))
      inner.planQueryBody parent binder
  | .values _, _, _, _, _ => .error (.unsupported "a bare VALUES list is not supported yet")
  | .other text, _, _, _, _ => .error (.unsupported s!"`{text}` is not supported as a query body")

def SetExpr.flattenCompound : SetExpr D -> Except Error (Chain D)
  | .setOperation left op quantifier right =>
    joinArms left.flattenCompound (resolveSetOp op quantifier) right.flattenCompound
  | .select select => .ok (fun parent binder => select.planSelectArm none none parent binder, [])
  | .query _ => .error (.unsupported ("a parenthesised arm of a compound query " ++
      "(UNION/INTERSECT/EXCEPT) is not supported; SQLite's own grammar does not allow one either"))
  | .values _ => .error (.unsupported
      "a VALUES list as an arm of a compound query is not supported yet")
  | .other text => .error (.unsupported
      s!"`{text}` is not supported as an arm of a compound query")

/-- The flattened body of a query, whatever else its node carries. -/
def Query.flattenBody : Query D -> Except Error (Chain D)
  | .mk _ body _ _ _ => body.flattenCompound

/-- `plan_select_arm` and `plan_select_body`. -/
def Select.planSelectArm : Select D -> Option (OrderClause D) -> Option (LimitPlanner D) -> Scope ->
    Binder D -> Except Error (SubqueryBody D × Binder D)
  | .mk core [] nested, order, limit, parent, binder => do
      D.rejectUnsupportedClauses core
      refuse (D.needsFrom core || order.isSome || limit.isSome) (.unsupported
        "WHERE, GROUP BY, HAVING, ORDER BY, WINDOW and LIMIT need a FROM clause")
      let (nested, binder) <- planNested nested ([] :: parent) binder
      let core <- D.planScalar core ([] :: parent) (nested.map (·.outputs))
      return (.scalar core nested, binder)
  | .mk core (source :: sources) nested, order, limit, parent, binder => do
      D.rejectUnsupportedClauses core
      let (first, binder) <- source.pushSource binder
      let (rest, binder) <- pushSources sources binder
      refuseKeyedJoin (first :: rest)
      let scope := (first :: rest).map scopeSource :: parent
      let (nested, binder) <- planNested nested scope binder
      let core <- D.planCore core scope (nested.map (·.outputs))
      let ((order, ordered), binder) <- resolveOrderBy order core scope binder
      let ((limit, offset), binder) <- resolveLimit limit scope binder
      return (.select (D.collect core (order.map (·.key))) ((first :: rest).map (·.1))
        (nested ++ ordered) (withScoreOrder core order) limit offset, binder)

def TableFactor.pushSource : TableFactor D -> Binder D -> Except Error (Sourced D × Binder D)
  | .table name aliasName args, binder => do
      refuse args (.unsupported (s!"table-valued functions are not supported: `{name}(...)` in " ++
        "FROM would need a mechanism this engine does not have for a function that returns rows"))
      let (item, binder) <- pushNamed catalog name binder
      return ((item, aliasName), binder)
  | .derived lateral subquery aliasName columns, binder => do
      refuse lateral (.unsupported "LATERAL is not in SQLite's dialect")
      refuse (aliasName.isSome && columns) (.unsupported ("a column alias list on a derived " ++
        "table is not supported; SQLite itself has no such syntax — alias the columns inside " ++
        "the subquery instead"))
      let (body, binder) <- subquery.planQueryBody [] binder
      let table <- derivedTable aliasName body.outputs
      return ((.derived table body, aliasName), binder)
  | .nestedJoin, _ => .error (.unsupported
      "a parenthesised join in FROM is not supported; write the joins in sequence")
  | .other text, _ => .error (.unsupported s!"`{text}` is not supported in FROM")

def pushSources : List (TableFactor D) -> Binder D -> Except Error (List (Sourced D) × Binder D)
  | [], binder => .ok ([], binder)
  | source :: rest, binder => do
      let (first, binder) <- source.pushSource binder
      let (rest, binder) <- pushSources rest binder
      return (first :: rest, binder)

/-- `plan_subquery`, of every query nested in an expression. -/
def planNested : List (Query D) -> Scope -> Binder D ->
    Except Error (List (SubqueryBody D) × Binder D)
  | [], _, binder => .ok ([], binder)
  | query :: rest, scope, binder => do
      let (first, binder) <- query.planQueryBody scope binder
      let (rest, binder) <- planNested rest scope binder
      return (first :: rest, binder)

/-- An `ORDER BY` clause, as what its resolution needs. -/
def OrderBy.clause : OrderBy D -> Option (OrderClause D)
  | .absent => none
  | .all => some ⟨none, false, fun _ binder => .ok ([], binder)⟩
  | .expressions terms nested interpolate =>
    some ⟨some terms, interpolate, fun scope binder => planNested nested scope binder⟩

/-- A `LIMIT` clause, as what its resolution does. -/
def LimitClause.planner : LimitClause D -> Option (LimitPlanner D)
  | .absent => none
  | .limitOffset limit offset offsetRows limitBy => some fun scope binder => do
      refuse limitBy (.unsupported
        "LIMIT ... BY is a ClickHouse extension and is not supported")
      let (limit, binder) <- limit.bindRowCount "LIMIT" scope binder
      refuse offsetRows (.unsupported "OFFSET ... ROW/ROWS is not in SQLite's dialect")
      let (offset, binder) <- offset.bindRowCount "OFFSET" scope binder
      return ((limit, offset), binder)
  | .offsetCommaLimit offset limit => some fun scope binder => do
      let (offset, binder) <- offset.bindRowCount "OFFSET" scope binder
      let (limit, binder) <- limit.bindRowCount "LIMIT" scope binder
      return ((limit, offset), binder)

def RowCount.bindRowCount : RowCount D -> String -> Scope -> Binder D ->
    Except Error (Count D × Binder D)
  | .absent, _, _, binder => .ok (.absent, binder)
  | .value text operand, what, _, binder =>
    match D.bindValue operand with
    | .ok bound => .ok (.value bound, binder)
    | .error _ => .error (.unsupported (s!"{what} `{text}` must be a literal, a `?` parameter " ++
        "or an uncorrelated subquery"))
  | .subquery text query, what, scope, binder => do
      let (body, binder) <- query.planQueryBody scope binder
      refuse (body.outputs.length != 1) (.type (s!"a scalar subquery must return exactly one " ++
        s!"column, but it returns {body.outputs.length}"))
      refuse (0 < body.reach) (.unsupported (s!"{what} `{text}` may not reference a column: it " ++
        "is evaluated once, before the query reads a row"))
      return (.subquery body, binder)
  | .other text, what, _, _ => .error (.unsupported (s!"{what} `{text}` must be a literal, a " ++
      "`?` parameter or an uncorrelated subquery"))

end

end

end InlaySql.Planner
