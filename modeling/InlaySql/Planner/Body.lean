import InlaySql.Planner.Syntax

/-!
# Planned queries and their rows

What the planner makes of a query, and how it runs: a `SELECT` holds its rows, sorts them,
skips its offset, stops at its limit and projects what is left; a compound combines two
bodies; a recursive body repeats its step on the rows the previous one added. A run carries
an allowance, the steps a recursion may take before the statement is interrupted. The row
budgets that let a scan end early are left out, and so is the cache of the answers of
subqueries that read nothing of the row they are asked for.
-/

namespace InlaySql.Planner

open Lib Sql

/-- One term of a resolved `ORDER BY`. -/
structure Order (κ : Type) where
  key : κ
  collation : Collation
  desc : Bool
  nullsFirst : Bool
  deriving DecidableEq, Repr

inductive SetOp where
  | union
  | unionAll
  | intersect
  | except
  deriving DecidableEq, Repr

def SetOp.name : SetOp -> String
  | .union => "UNION"
  | .unionAll => "UNION ALL"
  | .intersect => "INTERSECT"
  | .except => "EXCEPT"

mutual

/-- A planned query. -/
inductive SubqueryBody (D : Dialect) where
  | select (core : D.CorePlan) (sources : List (FromItem D)) (nested : List (SubqueryBody D))
      (order : List (Order D.Key)) (limit offset : Count D)
  | scalar (core : D.CorePlan) (nested : List (SubqueryBody D))
  | setOp (op : SetOp) (left right : SubqueryBody D) (collations : List Collation)
      (order : List (Order Nat)) (limit offset : Count D)
  | recursive (seed step : SubqueryBody D) (all : Bool) (collations : List Collation)
  | recursiveSelf (table : Table)

/-- One resolved source. -/
inductive FromItem (D : Dialect) where
  | stored (table : Table)
  | derived (table : Table) (body : SubqueryBody D)

/-- A resolved operand of a `LIMIT` clause, if there is one. -/
inductive Count (D : Dialect) where
  | absent
  | value (bound : D.Bound)
  | subquery (body : SubqueryBody D)

end

variable {D : Dialect}

/-! ## What a body projects -/

/-- What a synthetic table's columns carry. -/
def tableOutputs (table : Table) : List Output :=
  table.columns.map fun column =>
    ⟨column.name, some (column.collation, false), columnAffinity column.ty⟩

/-- `labels`, `body_output_collation` and `body_output_affinity` at every position. -/
def SubqueryBody.outputs : SubqueryBody D -> List Output
  | .select core .. | .scalar core _ => D.outputs core
  | .setOp _ left .. => left.outputs
  | .recursive seed .. => seed.outputs
  | .recursiveSelf table => tableOutputs table

/-- The collation each output column is compared under. -/
def collationsOf (outputs : List Output) : List Collation :=
  outputs.map fun output => output.collation.elim .binary (·.1)

/-- The name of a derived table without an alias. -/
def unnamedDerived : String := "(subquery)"

def derivedTable (name : Option String) (outputs : List Output) : Except Error Table :=
  if outputs.isEmpty then
    .error (.unsupported "a derived table must project at least one column")
  else .ok {
    name := name.getD unnamedDerived
    columns := outputs.map fun output =>
      { name := output.label
        ty := .numeric
        primaryKey := false
        notNull := false
        default := none
        collation := output.collation.elim .binary (·.1) }
    strict := false
    withoutRowid := false
    primaryKey := []
    temporary := false }

/-! ## Rows folded and sorted -/

def compareProjections (D : Dialect) (collations : List Collation) : Row -> Row -> Ordering
  | left :: lefts, right :: rights =>
    (D.compare (collations.headD .binary) left right).then
      (compareProjections D collations.tail lefts rights)
  | _, _ => .eq

/-- Which of a group of equal rows is kept. -/
inductive Keep where
  | first
  | last
  deriving DecidableEq, Repr

/-- One index for each run of equal rows of a sorted list of indices. -/
def survivors (same : Nat -> Nat -> Bool) (keep : Keep) : List Nat -> Option (Nat × Nat) -> List Nat
  | [], none => []
  | [], some (first, last) => [if keep = .first then first else last]
  | index :: rest, none => survivors same keep rest (some (index, index))
  | index :: rest, some (first, last) =>
    if same first index then survivors same keep rest (some (first, index))
    else (if keep = .first then first else last) ::
      survivors same keep rest (some (index, index))

/-- `duplicate_keep_mask`, and the rows it keeps, in the order they came in. -/
def withoutDuplicates (D : Dialect) (collations : List Collation) (keep : Keep)
    (rows : List Row) : List Row :=
  let compared (left right : Nat) : Ordering :=
    compareProjections D collations (rows.getD left []) (rows.getD right [])
  let order := (List.range rows.length).mergeSort fun left right =>
    ((compared left right).then (compare left right)).isLE
  let kept := survivors (fun left right => compared left right == .eq) keep order none
  rows.zipIdx.filterMap fun (row, index) => if kept.contains index then some row else none

def combineSetOperation (D : Dialect) (op : SetOp) (left right : List Row)
    (collations : List Collation) : List Row :=
  match op with
  | .unionAll => left ++ right
  | .union => withoutDuplicates D collations .last (left ++ right)
  | .intersect => (withoutDuplicates D collations .first left).filter fun row =>
    right.any (compareProjections D collations · row == .eq)
  | .except => (withoutDuplicates D collations .first left).filter fun row =>
    !right.any (compareProjections D collations · row == .eq)

/-- `SortKey::compare`. -/
def SortKey.compare (D : Dialect) {κ : Type} (term : Order κ) (left right : SortKey) : Ordering :=
  let directed (ordering : Ordering) := if term.desc then ordering.swap else ordering
  match left, right with
  | .value .null, .value .null => .eq
  | .value .null, .value _ => if term.nullsFirst then .lt else .gt
  | .value _, .value .null => if term.nullsFirst then .gt else .lt
  | .value left, .value right => directed (D.compare term.collation left right)
  | .score left, .score right => directed (D.compareScores left right)
  | _, _ => .eq

/-- Rows compared by their keys, one term after another. -/
def compareKeys (D : Dialect) {κ : Type} : List (Order κ) → List SortKey → List SortKey → Ordering
  | term :: order, left :: lefts, right :: rights =>
    (left.compare D term right).then (compareKeys D order lefts rights)
  | _, _, _ => .eq

/-- `sort_rows`, of anything that has keys and a row id. -/
def sortRows (D : Dialect) {κ ρ : Type} (order : List (Order κ)) (rowId : ρ -> Nat)
    (sortKey : κ -> ρ -> Except Error SortKey) (rows : List ρ) : Except Error (List ρ) :=
  if order.isEmpty then
    .ok (rows.mergeSort fun left right => rowId left ≤ rowId right)
  else do
    let keyed <- rows.mapM fun row => do
      return (<- order.mapM fun term => sortKey term.key row, row)
    return (keyed.mergeSort fun left right =>
      ((compareKeys D order left.1 right.1).then (compare (rowId left.2) (rowId right.2))).isLE).map
        (·.2)

/-- An offset and a limit, applied. -/
def page {ρ : Type} (limit : Option Nat) (offset : Nat) (rows : List ρ) : List ρ :=
  let rest := rows.drop offset
  limit.elim rest rest.take

/-- The value of a `LIMIT` operand as a row count: `NULL` and a negative number are none. -/
def countOf (D : Dialect) : Value -> Except Error (Option Nat)
  | .null => .ok none
  | .integer count => .ok (if count < 0 then none else some count.toNat)
  | .real count =>
    let count := D.truncate count
    .ok (if count < 0 then none else some count.toNat)
  | other => .error (.type s!"LIMIT/OFFSET must be a number, got {other.typeName}")

/-- The value of a scalar subquery: its first row's only column, or `NULL`. -/
def scalarOf (rows : List Row) : Value := (rows.headD []).cell 0

/-- The rows of a compound, once both its arms have theirs. -/
def finishCompound (D : Dialect) (order : List (Order Nat)) (limit offset : Option Nat)
    (combined : List Row) : Except Error (List Row) := do
  let numbered := combined.zipIdx 1
  let sorted <- sortRows D order (·.2) (fun key row => .ok (.value (row.1.cell key))) numbered
  return page limit (offset.getD 0) (sorted.map (·.1))

/-- The rows of a `SELECT`, once it holds them: sorted, skipped, stopped and projected. -/
def finishSelect (D : Dialect) (core : D.CorePlan) (order : List (Order D.Key))
    (limit : Option Nat) (offset : Nat) (nested : List Nested) (outer : List Row)
    (held : List D.Held) : Except Error (List Row) := do
  let sorted <- if order.isEmpty && !D.blocking core then .ok held
    else sortRows D order D.rowId (fun key row => D.sortKey core key nested outer row) held
  (page limit offset sorted).mapM (D.project core nested outer)

/-! ## Recursion -/

/-- The loop of `run_recursive`: what has been produced so far, and what the last step added.
The interrupt stops it once the allowance is spent. -/
def repeatStep (D : Dialect) (all : Bool) (collations : List Collation)
    (step : List Row -> Except Error (List Row)) :
    Nat -> List Row -> List Row -> Except Error (List Row)
  | _, allRows, [] => .ok allRows
  | 0, _, _ :: _ => .error (.cancelled .timeout)
  | allowance + 1, allRows, frontier => do
      let next <- step frontier
      let next := if all then next else
        withoutDuplicates D collations .first <| next.filter fun row =>
          !allRows.any (compareProjections D collations · row == .eq)
      repeatStep D all collations step allowance (allRows ++ next) next

def runRecursive (D : Dialect) (allowance : Nat) (all : Bool) (collations : List Collation)
    (seed : List Row) (step : List Row -> Except Error (List Row)) : Except Error (List Row) :=
  let seed := if all then seed else withoutDuplicates D collations .first seed
  repeatStep D all collations step allowance seed seed

/-! ## Running a body -/

/-- What a body is run in: the rows the last step of a recursion added, inside one, and the
rows of the enclosing queries. -/
structure Env where
  frontier : Option (List Row)
  outer : List Row
  deriving DecidableEq, Repr

/-- The environment of a nested query. -/
def Env.nested (self : Env) (row : Row) : Env := { self with outer := row :: self.outer }

section

variable (allowance : Nat)

mutual

/-- `run_body`. -/
def SubqueryBody.run : SubqueryBody D -> Env -> Except Error (List Row)
  | .select core sources nested order limit offset, env => do
      let limit <- Count.rows limit env
      let offset := (<- Count.rows offset env).getD 0
      let nested := runNested nested env
      let relations <- runSources sources env
      let held <- D.hold core (limit.map (· + offset)) (!order.isEmpty) relations nested env.outer
      finishSelect D core order limit offset nested env.outer held
  | .scalar core nested, env => do
      return [<- D.runScalar core (runNested nested env) env.outer]
  | .setOp op left right collations order limit offset, env => do
      let left <- left.run env
      let right <- right.run env
      let offset <- Count.rows offset env
      let limit <- Count.rows limit env
      finishCompound D order limit offset (combineSetOperation D op left right collations)
  | .recursive seed step all collations, env => do
      let seed <- seed.run env
      runRecursive D allowance all collations seed fun frontier =>
        step.run { env with frontier := some frontier }
  | .recursiveSelf _, env =>
    match env.frontier with
    | some rows => .ok rows
    | none => .error (.corrupt ("a RecursiveSelf reference only ever resolves inside " ++
        "Engine::run_recursive's loop, which always sets one first"))

/-- The rows of each source, in order. -/
def runSources : List (FromItem D) -> Env -> Except Error (List Relation)
  | [], _ => .ok []
  | .stored table :: rest, env => do return .stored table :: (<- runSources rest env)
  | .derived _ body :: rest, env => do
      let rows <- body.run env
      return .rows rows :: (<- runSources rest env)

/-- The nested queries, as what asking them answers. -/
def runNested : List (SubqueryBody D) -> Env -> List Nested
  | [], _ => []
  | body :: rest, env => (fun row => body.run (env.nested row)) :: runNested rest env

/-- `row_count`. -/
def Count.rows : Count D -> Env -> Except Error (Option Nat)
  | .absent, _ => .ok none
  | .value bound, _ => do countOf D (<- D.evaluate bound)
  | .subquery body, env => do countOf D (scalarOf (<- body.run (env.nested [])))

end

end

/-! ## Correlation -/

mutual

/-- How many enclosing queries up a body reads. -/
def SubqueryBody.reach : SubqueryBody D -> Nat
  | .select core _ nested _ limit offset =>
    max (D.reach core) (max (nestedReach nested) (max limit.reach offset.reach))
  | .scalar core nested => max (D.reach core) (nestedReach nested)
  | .setOp _ left right _ _ limit offset =>
    max (max left.reach right.reach) (max limit.reach offset.reach)
  | .recursive .. | .recursiveSelf _ => 0

def nestedReach : List (SubqueryBody D) -> Nat
  | [] => 0
  | body :: rest => max (body.reach - 1) (nestedReach rest)

def Count.reach : Count D -> Nat
  | .absent | .value _ => 0
  | .subquery body => body.reach - 1

end

end InlaySql.Planner
