import InlaySql.Planner.AgreeQuery
import InlaySql.Planner.Statement

/-!
# No clause of a query is dropped

What the queries of a statement contribute is what they mean, wherever they stand in it, for
a statement whose queries are bare: a recursive entry that calls itself carries nothing but
its body, and neither does a `VALUES` list an `INSERT` takes its rows from. The planner looks
at neither of these nodes, and drops what they carry.
-/

namespace InlaySql.Planner

open List Lib Sql

variable {D : Dialect}

/-! ## What the queries of a statement mean -/

/-- One row of `VALUES`: each value in the column it belongs to. -/
def rowMeaning (D : Dialect) (table : Table) (targets : List Nat) (exprs : List D.Operand) :
    Option (Cells D.Bound) := do
  guard (exprs.length = targets.length)
  let bound <- (exprs.zip targets).mapM fun cell => (bindCell D table cell.1 cell.2).toOption
  return place table.columns.length targets bound

section

variable (catalog : Catalog) (allowance : Nat)

/-- The rows an `INSERT` is given. A `VALUES` list with a clause means nothing. -/
def insertMeaning (table : Table) (targets : List Nat) :
    Option (Query D) -> Option (Except Error (List (Cells Value)))
  | none => some (.ok [List.replicate table.columns.length none])
  | some query =>
    match query.body with
    | .values rows => do
        guard query.carriesNothing
        let cells <- rows.mapM (rowMeaning D table targets)
        return cells.mapM fun row => row.mapM (evaluateCell D)
    | _ => do
        let rowset <- query.meaning catalog allowance [] []
        guard (rowset.outputs.length = targets.length)
        return do
          return (<- rowset.rows []).map (place table.columns.length targets)

/-- What the queries nested in the expressions of a statement answer on a row. -/
def clausesMeaning : Clauses D -> Option (List Nested)
  | [] => some []
  | (scope, query) :: rest => do
      let rowset <- query.meaning catalog allowance [] scope
      return (fun row => rowset.rows [row]) :: (<- clausesMeaning rest)

/-- What the queries of a statement contribute. -/
def Statement.meaning : Statement D -> Option Answer
  | .query inner => do
      let rowset <- inner.meaning catalog allowance [] []
      return ⟨do return (<- rowset.rows []).map (·.map some), []⟩
  | .insert name columns source clauses => do
      let table <- (catalog.requireTable name).toOption
      let targets <- (insertTargets table columns).toOption
      let rows <- insertMeaning catalog allowance table targets source
      return ⟨rows, <- clausesMeaning catalog allowance clauses⟩
  | .createTableAs _ _ declares inner => do
      guard !declares
      let rowset <- inner.meaning catalog allowance [] []
      let width := rowset.outputs.length
      return ⟨do return (<- rowset.rows []).map (place width (List.range width)), []⟩
  | .write clauses => do
      return ⟨.ok [], <- clausesMeaning catalog allowance clauses⟩

end

/-- What the condition asks of the source of an `INSERT`. -/
def Query.bareSource (self : Query D) : Bool :=
  match self.body with
  | .values _ => self.carriesNothing
  | _ => self.bare

/-- Every query of a statement is bare, and a `VALUES` list carries nothing. -/
def Statement.bare : Statement D -> Bool
  | .query inner => inner.bare
  | .insert _ _ source clauses => source.all Query.bareSource && clauses.all (·.2.bare)
  | .createTableAs _ _ _ inner => inner.bare
  | .write clauses => clauses.all (·.2.bare)

/-! ## The source of an `INSERT` -/

variable {α : Type} {targets : List Nat} {table : Table} {exprs : List D.Operand}
  {columns : List String} {body : SubqueryBody D} {next : Binder D}

theorem lookup_zip_of_notMem {target : Nat} (values : List α) (absent : target ∉ targets) :
    (targets.zip values).lookup target = none := by
  rw [lookup_eq_none_iff]
  intro pair member
  have among : pair.1 ∈ targets := (of_mem_zip member).1
  simpa using fun same : target = pair.1 => absent (same ▸ among)

/-- Cells put in a row over what was there. -/
def placeOver {α : Type} (fullRow : Cells α) (targets : List Nat) (values : List α) : Cells α :=
  (List.range fullRow.length).map fun ordinal =>
    ((targets.zip values).lookup ordinal).or (fullRow[ordinal]?).join

theorem placeOver_nil (fullRow : Cells α) : placeOver fullRow [] [] = fullRow := by
  refine ext_getElem (by simp [placeOver]) fun ordinal inside within => ?_
  simp [placeOver, within]

theorem placeOver_cons (fullRow : Cells α) {target : Nat} (value : α) (values : List α)
    (once : target ∉ targets) :
    placeOver (fullRow.set target (some value)) targets values =
      placeOver fullRow (target :: targets) (value :: values) := by
  rw [placeOver, placeOver, length_set]
  refine map_congr_left fun ordinal member => ?_
  have within := mem_range.mp member
  by_cases same : ordinal = target
  · subst same
    simp [lookup_zip_of_notMem values once, within]
  · rw [zip_cons_cons, lookup_cons, beq_eq_false_iff_ne.mpr same, getElem?_set_ne (Ne.symm same)]

theorem placeOver_replicate (width : Nat) (targets : List Nat) (values : List α) :
    placeOver (List.replicate width none) targets values = place width targets values := by
  rw [placeOver, place, length_replicate]
  refine map_congr_left fun ordinal member => ?_
  simp [mem_range.mp member]

theorem fillRow_exact {fullRow filled : Cells D.Bound} (distinct : targets.Nodup)
    (width : exprs.length = targets.length)
    (isFilled : fillRow D table exprs targets fullRow = .ok filled) :
    ∃ bound, ((exprs.zip targets).mapM fun cell =>
        (bindCell D table cell.1 cell.2).toOption) = some bound ∧
      filled = placeOver fullRow targets bound := by
  induction exprs generalizing targets fullRow with
  | nil =>
    obtain rfl := eq_nil_of_length_eq_zero width.symm
    cases isFilled
    exact ⟨[], rfl, (placeOver_nil _).symm⟩
  | cons expr exprs ih =>
    cases targets with
    | nil => cases width
    | cons target targets =>
      rw [fillRow] at isFilled
      obtain ⟨first, isFirst, filling⟩ := bind_eq_ok isFilled
      obtain ⟨once, distinct⟩ := nodup_cons.mp distinct
      obtain ⟨bound, isBound, rfl⟩ := ih distinct (Nat.succ.inj width) filling
      refine ⟨first :: bound, ?_, placeOver_cons fullRow first bound once⟩
      simp [toOption_eq_some isFirst, isBound]

theorem insertRow_exact {row : Cells D.Bound} (distinct : targets.Nodup)
    (planned : insertRow D table targets exprs = .ok row) :
    rowMeaning D table targets exprs = some row := by
  rw [insertRow] at planned
  obtain ⟨_, wide, filling⟩ := bind_eq_ok planned
  have width : exprs.length = targets.length := by simpa using refuse_eq_ok wide
  obtain ⟨bound, isBound, rfl⟩ := fillRow_exact distinct width filling
  simp [rowMeaning, width, isBound, placeOver_replicate]

theorem namedTargets_nodup {before : List Nat} (distinct : before.Nodup)
    (named : namedTargets table columns before = .ok targets) : targets.Nodup := by
  induction columns generalizing before with
  | nil =>
    cases named
    exact distinct
  | cons column columns ih =>
    rw [namedTargets] at named
    obtain ⟨⟨ordinal, _⟩, -, checking⟩ := bind_eq_ok named
    obtain ⟨_, fresh, naming⟩ := bind_eq_ok checking
    have fresh : ordinal ∉ before := by simpa using refuse_eq_ok fresh
    refine ih (nodup_append.mpr ⟨distinct, nodup_singleton _, ?_⟩) naming
    rintro other member _ last rfl
    exact fresh (mem_singleton.mp last ▸ member)

theorem insertTargets_nodup (named : insertTargets table columns = .ok targets) :
    targets.Nodup := by
  rw [insertTargets] at named
  split at named
  · cases named
    exact nodup_range
  · exact namedTargets_nodup nodup_nil named

theorem mapM_eq_some {β : Type} {fallible : α -> Except Error β} {optional : α -> Option β}
    (agree : ∀ input output, fallible input = .ok output -> optional input = some output)
    {inputs : List α} {outputs : List β} (succeeded : inputs.mapM fallible = .ok outputs) :
    inputs.mapM optional = some outputs := by
  induction inputs generalizing outputs with
  | nil =>
    cases succeeded
    rfl
  | cons input inputs ih =>
    rw [mapM_cons] at succeeded
    obtain ⟨first, isFirst, following⟩ := bind_eq_ok succeeded
    obtain ⟨rest, areRest, done⟩ := bind_eq_ok following
    cases done
    rw [mapM_cons, agree input first isFirst, ih areRest]
    rfl

theorem evaluate_defaults (D : Dialect) (width : Nat) :
    (List.replicate width none).mapM (evaluateCell D) = .ok (List.replicate width none) := by
  induction width with
  | zero => rfl
  | succ width ih =>
    rw [replicate_succ, mapM_cons, ih]
    rfl

variable {catalog : Catalog} {allowance : Nat}

theorem unnamed_agree : NamesAgree allowance (Binder.new : Binder D) [] := FramesAgree.nil

theorem unnamed_unseen (names : List String) : Unseen (Binder.new : Binder D) names := by
  rintro _ ⟨⟩

variable (allowance)

section

variable {query : Query D} (bare : query.bare = true)

include bare

theorem Query.exact_new {parent : Scope}
    (planned : query.planQueryBody catalog parent .new = .ok (body, next)) :
    next = .new ∧ ∃ meaning, query.meaning catalog allowance [] parent = some meaning ∧
      Denotes allowance none body meaning :=
  query.exact catalog allowance bare unnamed_agree (unnamed_unseen _) planned

theorem insertSelect_exact {source : InsertSource D}
    (planned : insertSelect catalog targets query .new = .ok (source, next)) :
    next = .new ∧ ∃ meaning, query.meaning catalog allowance [] [] = some meaning ∧
      meaning.outputs.length = targets.length ∧
      source.rows allowance table = (do
        return (<- meaning.rows []).map (place table.columns.length targets)) := by
  rw [insertSelect] at planned
  obtain ⟨⟨body, after⟩, isBody, checking⟩ := bind_eq_ok planned
  obtain ⟨rfl, meaning, isMeaning, denotes⟩ := query.exact_new allowance bare isBody
  have passed : ∃ result, refuse (body.outputs.length != targets.length) (.type (s!"the SELECT " ++
      s!"returns {body.outputs.length} column(s) but {targets.length} column(s) were targeted")) =
        .ok result ∧ .ok (InsertSource.select body targets, Binder.new) =
          (Except.ok (source, next) : Except Error _) := by
    cases body with
    | scalar => cases checking
    | select => exact bind_eq_ok checking
    | setOp => exact bind_eq_ok checking
    | recursive => exact bind_eq_ok checking
    | recursiveSelf => exact bind_eq_ok checking
  obtain ⟨_, wide, done⟩ := passed
  cases done
  have width : body.outputs.length = targets.length := by simpa using refuse_eq_ok wide
  refine ⟨rfl, meaning, isMeaning, ?_, ?_⟩
  · rw [<- denotes.outputs, width]
  · rw [InsertSource.rows, denotes.run]

end

theorem planInsertSource_exact (distinct : targets.Nodup) {source : Option (Query D)}
    (bare : source.all Query.bareSource = true) {planned : InsertSource D}
    (isPlanned : planInsertSource catalog table targets .new source = .ok (planned, next)) :
    next = .new ∧ insertMeaning catalog allowance table targets source =
      some (planned.rows allowance table) := by
  cases source with
  | none =>
    cases isPlanned
    refine ⟨rfl, ?_⟩
    rw [insertMeaning, InsertSource.rows, mapM_cons, evaluate_defaults]
    rfl
  | some query =>
    -- whatever the body is but `VALUES`, the query is planned as it stands alone
    have selected : query.bare = true ->
        insertSelect catalog targets query .new = .ok (planned, next) ->
        next = .new ∧ (do
          let rowset <- query.meaning catalog allowance [] []
          guard (rowset.outputs.length = targets.length)
          return do
            return (<- rowset.rows []).map (place table.columns.length targets)) =
          some (planned.rows allowance table) := by
      intro bare isSelect
      obtain ⟨same, meaning, isMeaning, width, rows⟩ :=
        insertSelect_exact allowance bare isSelect
      refine ⟨same, ?_⟩
      rw [rows]
      simp [isMeaning, width]
    obtain ⟨withClause, body, orderBy, limitClause, extras⟩ := query
    cases body with
    | select => exact selected bare isPlanned
    | query => exact selected bare isPlanned
    | setOperation => exact selected bare isPlanned
    | other => exact selected bare isPlanned
    | values rows =>
      obtain ⟨cells, areCells, done⟩ := bind_eq_ok isPlanned
      cases done
      refine ⟨rfl, ?_⟩
      have nothing : (Query.mk withClause (.values rows) orderBy limitClause
        extras).carriesNothing = true := bare
      have meant := mapM_eq_some (fun _ _ => insertRow_exact distinct) areCells
      simp [insertMeaning, Query.body, nothing, meant, InsertSource.rows]

/-! ## Statements -/

theorem planClauses_exact {clauses : Clauses D} (bare : clauses.all (·.2.bare) = true)
    {planned : List (SubqueryBody D)}
    (isPlanned : planClauses catalog clauses .new = .ok (planned, next)) :
    next = .new ∧ clausesMeaning catalog allowance clauses =
      some (runNested allowance planned ⟨none, []⟩) := by
  induction clauses generalizing planned next with
  | nil =>
    cases isPlanned
    exact ⟨rfl, rfl⟩
  | cons clause rest ih =>
    rw [all_cons, Bool.and_eq_true] at bare
    obtain ⟨⟨first, middle⟩, isFirst, following⟩ := bind_eq_ok isPlanned
    obtain ⟨⟨others, last⟩, areOthers, done⟩ := bind_eq_ok following
    cases done
    obtain ⟨rfl, meaning, isMeaning, denotes⟩ :=
      clause.2.exact_new allowance bare.1 isFirst
    obtain ⟨rfl, meanings⟩ := ih bare.2 areOthers
    refine ⟨rfl, ?_⟩
    have answers : (fun row => first.run allowance (Env.nested ⟨none, []⟩ row)) =
        fun row => meaning.rows [row] := by
      funext row
      exact denotes.run _
    rw [runNested, answers, clausesMeaning, isMeaning, meanings]
    rfl

theorem takeLabel_length {columns next : List Column} {labelled : String × Option DataType}
    (taken : takeLabel columns labelled = .ok next) : next.length = columns.length + 1 := by
  rw [takeLabel] at taken
  split at taken
  · cases taken
  · cases taken
    simp

theorem takeLabels_length {labels : List (String × Option DataType)} {columns next : List Column}
    (taken : labels.foldlM takeLabel columns = .ok next) :
    next.length = columns.length + labels.length := by
  induction labels generalizing columns with
  | nil =>
    cases taken
    rfl
  | cons label labels ih =>
    rw [foldlM_cons] at taken
    obtain ⟨middle, isMiddle, following⟩ := bind_eq_ok taken
    rw [ih following, takeLabel_length isMiddle, length_cons]
    omega

theorem columns_asSelect {name : String} {temporary : Bool} {created : Table × TableConstraints}
    (planned : planCreateTableAsSelect name temporary body.labelled = .ok created) :
    created.1.columns.length = body.outputs.length := by
  have labelled : body.labelled.length = body.outputs.length := by
    cases body <;> simp [SubqueryBody.labelled]
  rw [planCreateTableAsSelect] at planned
  obtain ⟨columns, areColumns, checking⟩ := bind_eq_ok planned
  have length := takeLabels_length areColumns
  split at checking
  · cases checking
  · cases checking
    rw [length, labelled]
    exact Nat.zero_add _

/-- A `SELECT` of the dialect of small integers. -/
inductive Numbers where
  | one
  /-- One more than every row below five. -/
  | next
  | every
  deriving DecidableEq, Repr

def Numbers.rows : Numbers -> List (List Row) -> List Row
  | .one, _ => [[.integer 1]]
  | .next, sources => (sources.headD []).filterMap fun row =>
    match row.cell 0 with
    | .integer number => if number < 5 then some [.integer (number + 1)] else none
    | _ => none
  | .every, sources => sources.headD []

/-- Just enough of a language to count in. -/
def counting : Dialect where
  Core := Numbers
  Term := Unit
  Operand := Nat
  CorePlan := Numbers
  Key := Unit
  Bound := Nat
  Held := Row
  rejectUnsupportedClauses := fun _ => .ok ()
  needsFrom := fun _ => false
  planScalar := fun core _ _ => .ok core
  planCore := fun core _ _ => .ok core
  resolveKey := fun _ _ _ _ => .ok ()
  keyCollation := fun _ _ _ => .binary
  collect := fun core _ => core
  outputs := fun _ => [⟨"x", none, none⟩]
  outputType := fun _ _ => none
  reach := fun _ => 0
  folds := fun _ => false
  windowed := fun _ => false
  blocking := fun _ => false
  scored := fun _ => false
  scoreKey := ()
  peelCollation := fun term => .ok (term, none)
  number := fun _ => none
  identifier := fun _ => none
  bindValue := .ok
  fitLiteral := fun bound _ _ => .ok bound
  evaluate := fun bound => .ok (.integer bound)
  runScalar := fun core _ _ => .ok ((core.rows []).headD [])
  hold := fun core _ _ relations _ _ => .ok <| core.rows <| relations.map fun relation =>
    match relation with
    | .rows rows => rows
    | .stored _ => []
  rowId := fun _ => 0
  sortKey := fun _ _ _ _ _ => .ok (.value .null)
  project := fun _ _ _ row => .ok row
  compare := fun _ _ _ => .eq
  compareScores := fun _ _ => .eq
  truncate := fun _ => 0

/-- `WITH RECURSIVE c(x) AS (SELECT 1 UNION ALL SELECT x + 1 FROM c WHERE x < 5)
SELECT x FROM c`, with a clause behind the recursion. -/
def countUp (clause : LimitClause counting) : Statement counting :=
  let step : Select counting := .mk Numbers.next [.table "c" none false] []
  let entry : Query counting := .mk .absent
    (.setOperation (.select (.mk Numbers.one [] [])) .union .all (.select step)) .absent clause
    .none
  .query (.mk (.tables true [.mk "c" [⟨"x", false⟩] entry false])
    (.select (.mk Numbers.every [.table "c" none false] [])) .absent .absent .none)

/-- `LIMIT 2`. -/
def limitTwo : LimitClause counting := .limitOffset (.value "2" (2 : Nat)) .absent false false

/-- The rows of one column of numbers. -/
def numberRows (numbers : List Int) : List (Cells Value) :=
  numbers.map fun number => [some (.integer number)]

theorem planned_of_rows (statement : Statement counting) (numbers : List Int)
    (rows : (statement.plan .empty).toOption.bind (fun plan => (plan.answer 10).rows.toOption) =
      some (numberRows numbers)) :
    ∃ plan, statement.plan .empty = .ok plan ∧ (plan.answer 10).rows = .ok (numberRows numbers) := by
  cases planned : statement.plan .empty with
  | error error =>
    rw [planned] at rows
    cases rows
  | ok plan =>
    rw [planned] at rows
    refine ⟨plan, rfl, ?_⟩
    change (plan.answer 10).rows.toOption = some (numberRows numbers) at rows
    cases answered : (plan.answer 10).rows with
    | error error =>
      rw [answered] at rows
      cases rows
    | ok found =>
      rw [answered] at rows
      cases rows
      rfl

end InlaySql.Planner
