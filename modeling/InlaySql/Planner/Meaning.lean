import InlaySql.Planner.Planner

/-!
# What a query means

The rows of a query by its structure alone: a `WITH` list names relations for the query it
stands in front of, a compound is read from left to right in written order, and `ORDER BY`,
`OFFSET` and `LIMIT` apply to the rows of the query whose node carries them. A name stands for
the first entry of the innermost list that declares it, and else for a stored table; the name
of a recursive entry stands for the rows of its last step in the `FROM` of its step and
nowhere inside the queries nested there. A query no sense can be made of has no meaning.
-/

namespace InlaySql.Planner

open Lib Sql

/-- What a query projects, and its rows given the rows of the enclosing queries. -/
structure Rowset where
  outputs : List Output
  rows : List Row -> Except Error (List Row)

/-- A relation a name stands for. -/
structure Named where
  name : String
  table : Table
  rows : List Row -> Except Error (List Row)

/-- A `WITH` list: the names it declares, and the relations of those that have one so far. -/
structure Frame where
  declared : List String
  named : List Named

/-- A recursive entry inside its step: its name, its columns and the rows of the last step. -/
structure Recursive where
  name : String
  table : Table
  rows : List Row

/-- One more relation in the innermost list. -/
def addNamed (named : Named) : List Frame -> List Frame
  | [] => [⟨[], [named]⟩]
  | frame :: frames => { frame with named := frame.named ++ [named] } :: frames

/-- What a name stands for: nothing yet, a relation, or none of a `WITH` list. -/
def lookup (name : String) : List Frame -> Option (Option Named)
  | [] => some none
  | frame :: frames =>
    match frame.named.find? (sameName ·.name name) with
    | some named => some (some named)
    | none => if frame.declared.any (sameName · name) then none else lookup name frames

/-- A source of a `SELECT`. -/
structure SourceMeaning where
  source : ScopeSource
  relation : List Row -> Except Error Relation

variable {D : Dialect}

/-- An `ORDER BY` clause, with what the queries nested in its terms mean. -/
structure OrderMeaning (D : Dialect) where
  terms : Option (List (OrderTerm D))
  interpolate : Bool
  nested : List Frame -> Scope -> Option (List Rowset)

/-- A row count, given the rows of the enclosing queries. -/
abbrev CountMeaning := List Row -> Except Error (Option Nat)

/-- A `LIMIT` clause: its limit and its offset. -/
abbrev LimitMeaning := List Frame -> Scope -> Option (CountMeaning × CountMeaning)

/-- One arm of a compound. -/
abbrev ArmMeaning := List Frame -> Option Recursive -> Scope -> Option Rowset

/-- The arms of a compound in written order: the first, and what each operator adds. -/
abbrev ChainMeaning := ArmMeaning × List (SetOp × ArmMeaning)

/-! ## The clauses of a query node -/

/-- The terms of an `ORDER BY` clause. -/
def OrderMeaning.listed (self : OrderMeaning D) : Option (List (OrderTerm D)) := do
  guard !self.interpolate
  self.terms

/-- The sort keys of a `SELECT`, and the nested queries they read. -/
def orderMeaning (order : Option (OrderMeaning D)) (core : D.CorePlan) (frames : List Frame)
    (scope : Scope) : Option (List (Order D.Key) × List Rowset) :=
  match order with
  | none => some ([], [])
  | some clause => do
      let nested <- clause.nested frames scope
      let terms <- clause.listed
      let keys <- (resolveTerms terms (D.resolveKey core scope (nested.map (·.outputs)))
        (D.keyCollation core scope)).toOption
      return (keys, nested)

/-- The sort keys of a compound: its output columns. -/
def compoundOrderMeaning (order : Option (OrderMeaning D)) (columns : List Column) :
    Option (List (Order Nat)) :=
  match order with
  | none => some []
  | some clause => do
      let terms <- clause.listed
      (resolveCompoundTerms terms columns).toOption

def limitMeaning (limit : Option LimitMeaning) (frames : List Frame) (scope : Scope) :
    Option (CountMeaning × CountMeaning) :=
  match limit with
  | none => some (fun _ => .ok none, fun _ => .ok none)
  | some meaning => meaning frames scope

/-! ## Compounds -/

/-- Two relations under a set operator. -/
def Rowset.combine (D : Dialect) (op : SetOp) (left right : Rowset) :
    Option Rowset := do
  guard (left.outputs.length = right.outputs.length)
  return ⟨left.outputs, fun outer => do
    let lefts <- left.rows outer
    let rights <- right.rows outer
    return combineSetOperation D op lefts rights (collationsOf left.outputs)⟩

/-- A chain of operators, from left to right. -/
def combineAll (D : Dialect) (frames : List Frame) (parent : Scope) :
    Rowset -> List (SetOp × ArmMeaning) -> Option Rowset
  | rowset, [] => some rowset
  | rowset, (op, arm) :: rest => do
      combineAll D frames parent (<- rowset.combine D op (<- arm frames none parent)) rest

/-- The chain of a compound. -/
def chainMeaning (D : Dialect) (chain : ChainMeaning) (frames : List Frame) (parent : Scope) :
    Option Rowset := do
  combineAll D frames parent (<- chain.1 frames none parent) chain.2

/-- The rows of a compound under its clauses. -/
def Rowset.withClauses (D : Dialect) (self : Rowset) (order : List (Order Nat))
    (limit offset : CountMeaning) : Rowset :=
  ⟨self.outputs, fun outer => do
    let rows <- self.rows outer
    let offset <- offset outer
    let limit <- limit outer
    finishCompound D order limit offset rows⟩

/-- A compound under the clauses of its query node. -/
def compoundMeaning (chain : Option ChainMeaning) (order : Option (OrderMeaning D))
    (limit : Option LimitMeaning) (frames : List Frame) (parent : Scope) : Option Rowset := do
  let rowset <- chainMeaning D (<- chain) frames parent
  let synthetic <- (derivedTable none rowset.outputs).toOption
  let order <- compoundOrderMeaning order synthetic.columns
  let (limit, offset) <- limitMeaning limit frames [[⟨synthetic, none, true⟩]]
  return rowset.withClauses D order limit offset

/-- Two chains around an operator. -/
def joinChains (left : Option ChainMeaning) (op : Except Error SetOp)
    (right : Option ChainMeaning) : Option ChainMeaning := do
  let (first, before) <- left
  let op <- op.toOption
  let (next, after) <- right
  return (first, before ++ (op, next) :: after)

/-! ## Recursion -/

/-- A queue of rows, worked off one at a time: a row taken from the front is produced, unless
the offset still skips it, and the step runs on that row alone. A limit ends it. -/
def drainQueue (sorted : List Row -> Except Error (List Row))
    (step : List Row -> Except Error (List Row)) (fresh : List Row -> List Row -> List Row) :
    Nat -> Option Nat -> Nat -> List Row -> List Row -> Except Error (List Row)
  | _, some 0, _, _, _ => .ok []
  | _, _, _, _, [] => .ok []
  | 0, _, _, _, _ :: _ => .error (.cancelled .timeout)
  | allowance + 1, limit, offset, seen, row :: queue => do
      let added := fresh seen (<- step [row])
      let queue <- sorted (queue ++ added)
      if offset = 0 then
        return row :: (<- drainQueue sorted step fresh allowance (limit.map (· - 1)) 0
          (seen ++ added) queue)
      else drainQueue sorted step fresh allowance limit (offset - 1) (seen ++ added) queue

/-- The rows of a recursive entry whose query carries an `ORDER BY`, a `LIMIT` or an `OFFSET`:
the order is that in which the queue is worked off, the limit ends the recursion. -/
def queueRows (D : Dialect) (allowance : Nat) (all : Bool) (collations : List Collation)
    (order : List (Order Nat)) (limit : Option Nat) (offset : Nat) (seed : List Row)
    (step : List Row -> Except Error (List Row)) : Except Error (List Row) := do
  let fresh (seen rows : List Row) := if all then rows else
    withoutDuplicates D collations .first <| rows.filter fun row =>
      !seen.any (compareProjections D collations · row == .eq)
  let seed := fresh [] seed
  let queue <- finishCompound D order none none seed
  drainQueue (finishCompound D order none none) step fresh allowance limit offset seed queue

/-- The rows of a recursive entry: those of its seed, and what its step adds to the rows of
the step before, until a step adds none. -/
def recursiveRows (D : Dialect) (allowance : Nat) (all : Bool) (seed : Rowset)
    (clauses : Option (List (Order Nat) × CountMeaning × CountMeaning))
    (step : List Row -> List Row -> Except Error (List Row)) (outer : List Row) :
    Except Error (List Row) := do
  let rows <- seed.rows outer
  match clauses with
  | none => runRecursive D allowance all (collationsOf seed.outputs) rows (step outer)
  | some (order, limit, offset) => do
      let offset := (<- offset outer).getD 0
      let limit <- limit outer
      queueRows D allowance all (collationsOf seed.outputs) order limit offset rows (step outer)

/-- What a recursive entry means, from the chain of its body and the clauses of its node. -/
def recursionMeaning (allowance : Nat) (name : String) (columns : List AliasColumn)
    (chain : Option ChainMeaning) (order : Option (OrderMeaning D)) (limit : Option LimitMeaning)
    (frames : List Frame) : Option Rowset := do
  let (first, rest) <- chain
  let (op, last) <- rest.getLast?
  let seed <- chainMeaning D (first, rest.dropLast) frames []
  let synthetic <- (derivedTable none seed.outputs).toOption
  let table <- (applyColumnAliases synthetic columns).toOption
  let all <- (recursiveAll name op).toOption
  let step <- last frames (some ⟨name, table, []⟩) []
  guard (seed.outputs.length = step.outputs.length)
  let keys <- compoundOrderMeaning order synthetic.columns
  let counts <- limitMeaning limit frames [[⟨synthetic, none, true⟩]]
  let clauses := if order.isSome || limit.isSome then some (keys, counts) else none
  return ⟨seed.outputs, recursiveRows D allowance all seed clauses fun outer frontier =>
    match last frames (some ⟨name, table, frontier⟩) [] with
    | some step => step.rows outer
    | none => .error (.corrupt "a step without a meaning")⟩

/-! ## Queries -/

/-- The table names among the sources of a `FROM`. -/
def directNames : List (TableFactor D) -> List String
  | [] => []
  | .table name .. :: rest => name :: directNames rest
  | _ :: rest => directNames rest

/-- The arm a body is written to end with. -/
def SetExpr.lastArm : SetExpr D -> Option (Select D)
  | .select arm => some arm
  | .setOperation _ _ _ right => right.lastArm
  | _ => none

/-- The names a `SELECT` reads in its own `FROM`. -/
def Select.directNames : Select D -> List String
  | .mk _ sources _ => Planner.directNames sources

/-- The last arm of a compound. -/
def SetExpr.step : SetExpr D -> Option (Select D)
  | .setOperation _ _ _ right => right.lastArm
  | .select _ | .query _ | .values _ | .other _ => none

/-- The query of an entry calls it: it is a compound whose last arm reads the entry. -/
def SetExpr.calls (name : String) (self : SetExpr D) : Bool :=
  self.step.any fun step => step.directNames.any (sameName · name)

def Query.body : Query D -> SetExpr D
  | .mk _ body _ _ _ => body

/-- The rows of a `SELECT`, in the order and to the extent its query asks for. -/
def selectRows (core : D.CorePlan) (sources : List SourceMeaning) (nested : List Rowset)
    (order : List (Order D.Key)) (limit offset : CountMeaning) (outer : List Row) :
    Except Error (List Row) := do
  let limit <- limit outer
  let offset := (<- offset outer).getD 0
  let nested : List Nested := nested.map fun query row => query.rows (row :: outer)
  let relations <- sources.mapM fun source => source.relation outer
  let held <- D.hold core (limit.map (· + offset)) (!order.isEmpty) relations nested outer
  finishSelect D core order limit offset nested outer held

/-- The one row of a `SELECT` without a `FROM`. -/
def scalarRows (core : D.CorePlan) (nested : List Rowset) (outer : List Row) :
    Except Error (List Row) := do
  return [<- D.runScalar core (nested.map fun query row => query.rows (row :: outer)) outer]

section

variable (catalog : Catalog) (allowance : Nat)

/-- What a table name in a `FROM` stands for. -/
def namedMeaning (name : String) (aliasName : Option String) (frames : List Frame)
    (self : Option Recursive) : Option SourceMeaning :=
  match self.filter (sameName name ·.name) with
  | some self => some ⟨⟨self.table, aliasName, true⟩, fun _ => .ok (.rows self.rows)⟩
  | none => do
      match <- lookup name frames with
      | some named => return ⟨⟨named.table, aliasName, true⟩,
          fun outer => do return .rows (<- named.rows outer)⟩
      | none => do
          let table <- (catalog.requireTable name).toOption
          return ⟨⟨table, aliasName, false⟩, fun _ => .ok (.stored table)⟩

mutual

def Query.meaning : Query D -> List Frame -> Scope -> Option Rowset
  | .mk withClause body orderBy limitClause extras, frames, parent => do
      guard (extras = .none)
      let frames <- withClause.frames frames
      body.meaning orderBy.meaning limitClause.meaning frames parent

/-- The names in scope behind a `WITH` clause. -/
def With.frames : With D -> List Frame -> Option (List Frame)
  | .absent, frames => some frames
  | .tables recursive cteTables, frames =>
    cteFrames cteTables recursive (⟨cteTables.map Cte.name, []⟩ :: frames)

def cteFrames : List (Cte D) -> Bool -> List Frame -> Option (List Frame)
  | [], _, frames => some frames
  | cte :: rest, recursive, frames => do
      cteFrames rest recursive (<- cte.frames recursive frames)

/-- The names in scope behind one entry of a `WITH` list. -/
def Cte.frames : Cte D -> Bool -> List Frame -> Option (List Frame)
  | .mk name columns query materialized, recursive, frames => do
      guard !materialized
      let rowset <-
        (if recursive && query.body.calls name then query.recursion name columns frames
        else query.meaning frames [])
      let synthetic <- (derivedTable (some name) rowset.outputs).toOption
      let table <- (applyColumnAliases synthetic columns).toOption
      return addNamed ⟨name, table, rowset.rows⟩ frames

/-- The meaning of a recursive entry, its node's own clauses included. -/
def Query.recursion : Query D -> String -> List AliasColumn -> List Frame -> Option Rowset
  | .mk withClause body orderBy limitClause extras, name, columns, frames => do
      guard (extras = .none)
      let frames <- withClause.frames frames
      recursionMeaning allowance name columns body.chain orderBy.meaning limitClause.meaning frames

/-- A body under the clauses of its query node. -/
def SetExpr.meaning : SetExpr D -> Option (OrderMeaning D) -> Option LimitMeaning -> List Frame ->
    Scope -> Option Rowset
  | .select select, order, limit, frames, parent =>
    select.meaning order limit frames none parent
  | .setOperation left op quantifier right, order, limit, frames, parent =>
    compoundMeaning (joinChains left.chain (resolveSetOp op quantifier) right.chain) order limit
      frames parent
  | .query inner, order, limit, frames, parent => do
      guard !(order.isSome || limit.isSome)
      inner.meaning frames parent
  | .values _, _, _, _, _ | .other _, _, _, _, _ => none

/-- The arms of a compound in written order, however the tree groups them. -/
def SetExpr.chain : SetExpr D -> Option ChainMeaning
  | .setOperation left op quantifier right =>
    joinChains left.chain (resolveSetOp op quantifier) right.chain
  | .select select =>
    some (fun frames self parent => select.meaning none none frames self parent, [])
  | .query _ | .values _ | .other _ => none

def Select.meaning : Select D -> Option (OrderMeaning D) -> Option LimitMeaning -> List Frame ->
    Option Recursive -> Scope -> Option Rowset
  | .mk core [] nested, order, limit, frames, _, parent => do
      (D.rejectUnsupportedClauses core).toOption
      guard !(D.needsFrom core || order.isSome || limit.isSome)
      let nested <- nestedMeanings nested frames ([] :: parent)
      let core <- (D.planScalar core ([] :: parent) (nested.map (·.outputs))).toOption
      return ⟨D.outputs core, scalarRows core nested⟩
  | .mk core (source :: sources) nested, order, limit, frames, self, parent => do
      (D.rejectUnsupportedClauses core).toOption
      let first <- source.meaning frames self
      let sources := first :: (<- sourceMeanings sources frames self)
      let scope := sources.map (·.source) :: parent
      let nested <- nestedMeanings nested frames scope
      let core <- (D.planCore core scope (nested.map (·.outputs))).toOption
      let (order, ordered) <- orderMeaning order core frames scope
      let (limit, offset) <- limitMeaning limit frames scope
      let whole := D.collect core (order.map (·.key))
      return ⟨D.outputs whole, selectRows whole sources (nested ++ ordered)
        (withScoreOrder core order) limit offset⟩

def TableFactor.meaning : TableFactor D -> List Frame -> Option Recursive -> Option SourceMeaning
  | .table name aliasName args, frames, self => do
      guard !args
      namedMeaning catalog name aliasName frames self
  | .derived lateral subquery aliasName columns, frames, _ => do
      guard !(lateral || aliasName.isSome && columns)
      let rowset <- subquery.meaning frames []
      let table <- (derivedTable aliasName rowset.outputs).toOption
      return ⟨⟨table, aliasName, true⟩, fun outer => do return .rows (<- rowset.rows outer)⟩
  | .nestedJoin, _, _ | .other _, _, _ => none

def sourceMeanings : List (TableFactor D) -> List Frame -> Option Recursive ->
    Option (List SourceMeaning)
  | [], _, _ => some []
  | source :: rest, frames, self => do
      let first <- source.meaning frames self
      return first :: (<- sourceMeanings rest frames self)

def nestedMeanings : List (Query D) -> List Frame -> Scope -> Option (List Rowset)
  | [], _, _ => some []
  | query :: rest, frames, scope => do
      let first <- query.meaning frames scope
      return first :: (<- nestedMeanings rest frames scope)

def OrderBy.meaning : OrderBy D -> Option (OrderMeaning D)
  | .absent => none
  | .all => some ⟨none, false, fun _ _ => some []⟩
  | .expressions terms nested interpolate =>
    some ⟨some terms, interpolate, fun frames scope => nestedMeanings nested frames scope⟩

def LimitClause.meaning : LimitClause D -> Option LimitMeaning
  | .absent => none
  | .limitOffset limit offset offsetRows limitBy => some fun frames scope => do
      guard !(offsetRows || limitBy)
      return (<- limit.meaning frames scope, <- offset.meaning frames scope)
  | .offsetCommaLimit offset limit => some fun frames scope => do
      return (<- limit.meaning frames scope, <- offset.meaning frames scope)

def RowCount.meaning : RowCount D -> List Frame -> Scope -> Option CountMeaning
  | .absent, _, _ => some fun _ => .ok none
  | .value _ operand, _, _ => do
      let bound <- (D.bindValue operand).toOption
      return fun _ => do countOf D (<- D.evaluate bound)
  | .subquery _ query, frames, scope => do
      let rowset <- query.meaning frames scope
      return fun outer => do countOf D (scalarOf (<- rowset.rows ([] :: outer)))
  | .other _, _, _ => none

end

end

end InlaySql.Planner
