import InlaySql.Sql.Expr
import InlaySql.Sql.KeyOrder
import InlaySql.Sql.Storage

/-!
# Access paths

How a statement reaches the rows of one table: a row id its filter pins, a range of
one B-tree index the filter's conjuncts justify, or a scan. The filter is applied to
every row a path yields, so a path is right when it yields every row the filter
admits, in row-id order.
-/

namespace InlaySql.Sql

open Lib

/-! ## The row id -/

/-- `integer_key`: an integer an expression names, written out or bound. -/
def integerKey (params : List Value) : Expr -> Option Int
  | .literal (.integer key) => some key
  | .param index =>
    match params[index]? with
    | some (.integer key) => some key
    | _ => none
  | _ => none

/-- `RowId::try_from` of an `i64`. -/
def rowIdOfInt (key : Int) : Option RowId := if 0 ≤ key then some key.toNat else none

/-- The key an equality compares the aliased column with. -/
def pinnedKey (params : List Value) (aliased : Nat) (left right : Expr) : Option RowId :=
  match left.withoutCollate, right.withoutCollate with
  | .column ordinal, other =>
    if ordinal = aliased then (integerKey params other).bind rowIdOfInt
    else
      match other with
      | .column second =>
        if second = aliased then (integerKey params (.column ordinal)).bind rowIdOfInt else none
      | _ => none
  | other, .column ordinal =>
    if ordinal = aliased then (integerKey params other).bind rowIdOfInt else none
  | _, _ => none

/-- The `walk` of `pinned_rowid`. -/
def pinnedWalk (params : List Value) (aliased : Nat) : Expr -> Option RowId
  | .binary .and left right _ _ =>
    (pinnedWalk params aliased left).or (pinnedWalk params aliased right)
  | .binary .eq left right _ _ => pinnedKey params aliased left right
  | _ => none

def pinnedRowid (table : Table) (filter : Option Expr) (params : List Value) : Option RowId := do
  pinnedWalk params (<- table.rowidAlias) (<- filter)

/-! ## Index probes -/

/-- One `column <op> value` of a filter's conjunction, the column on the left. -/
structure Term where
  ordinal : Nat
  op : BinaryOp
  value : Value
  collation : Collation
  deriving DecidableEq, Repr

/-- `resolve`: a literal or a bound parameter. -/
def resolveOperand (params : List Value) : Expr -> Option Value
  | .literal value => some value
  | .param index => params[index]?
  | _ => none

/-- `flip`: the comparison with its operands swapped. -/
def BinaryOp.flip : BinaryOp -> BinaryOp
  | .lt => .gt
  | .ltEq => .gtEq
  | .gt => .lt
  | .gtEq => .ltEq
  | op => op

/-- Whether an index can answer a comparison at all. -/
def BinaryOp.isIndexable : BinaryOp -> Bool
  | .eq | .lt | .ltEq | .gt | .gtEq => true
  | _ => false

/-- The term of one comparison. -/
def comparisonTerm (params : List Value) (table : Table) (op : BinaryOp) (left right : Expr)
    (collation : Collation) : Option Term :=
  match left.withoutCollate, right.withoutCollate with
  | .column ordinal, other =>
    if ordinal < table.columns.length then
      (resolveOperand params other).map fun value => ⟨ordinal, op, value, collation⟩
    else
      match other with
      | .column second =>
        if second < table.columns.length then
          (resolveOperand params (.column ordinal)).map fun value =>
            ⟨second, op.flip, value, collation⟩
        else none
      | _ => none
  | other, .column ordinal =>
    if ordinal < table.columns.length then
      (resolveOperand params other).map fun value => ⟨ordinal, op.flip, value, collation⟩
    else none
  | _, _ => none

/-- One bound of a `BETWEEN`. -/
def boundTerm (params : List Value) (ordinal : Nat) (op : BinaryOp) (bound : Expr)
    (collation : Collation) : List Term :=
  match resolveOperand params bound.withoutCollate with
  | some value => [⟨ordinal, op, value, collation⟩]
  | none => []

def collectConjuncts (params : List Value) (table : Table) : Expr -> List Term
  | .binary .and left right _ _ =>
    collectConjuncts params table left ++ collectConjuncts params table right
  | .binary op left right collation _ =>
    if op.isIndexable then (comparisonTerm params table op left right collation).toList else []
  | .between false expr low high lowCollation highCollation _ _ =>
    match expr.withoutCollate with
    | .column ordinal =>
      if ordinal < table.columns.length then
        boundTerm params ordinal .gtEq low lowCollation ++
          boundTerm params ordinal .ltEq high highCollation
      else []
    | _ => []
  | _ => []

def indexableProbe : DataType -> Value -> Bool
  | .integer, .integer _ | .real, .integer _ => true
  | .integer, .real real | .real, .real real => !real.isNan
  | .text, .text _ => true
  | .blob, .blob _ => true
  | _, _ => false

def indexOrdinals (table : Table) (index : Index) : Except Error (List Nat) :=
  index.columns.mapM fun column => do return (<- table.requireColumn column).1

/-- `index_values`: a missing trailing column is `NULL`. -/
def indexValues (table : Table) (index : Index) (row : Row) : Except Error (List Value) := do
  return (<- indexOrdinals table index).map row.cell

/-- Whether a term bounds the column at a position of an index. -/
def usableTerm (table : Table) (index : Index) (term : Term) (ordinal position : Nat) : Bool :=
  term.ordinal == ordinal &&
    (table.columns[ordinal]?).any (fun column => indexableProbe column.ty term.value) &&
      term.collation == index.collation position

/-- The values of the equalities on the leading columns, from a position on. -/
def leadingEqualities (table : Table) (index : Index) (terms : List Term) :
    Nat -> List Nat -> List Value
  | _, [] => []
  | position, ordinal :: rest =>
    match terms.find? fun term => term.op == .eq && usableTerm table index term ordinal position with
    | some term => term.value :: leadingEqualities table index terms (position + 1) rest
    | none => []

namespace KeyRange

def withLower (range : KeyRange) (index : String) (leading : List Value)
    (collations : List Collation) (value : Value) : Except Error KeyRange := do
  let start := (<- probePrefix index leading collations) ++
    (<- encodeValue (Collation.atPosition collations leading.length) value)
  return { range with start := if range.start < start then start else range.start }

def withUpper (range : KeyRange) (index : String) (leading : List Value)
    (collations : List Collation) (value : Value) : Except Error KeyRange := do
  let bound := (<- probePrefix index leading collations) ++
    (<- encodeValue (Collation.atPosition collations leading.length) value)
  return { range with stop :=
    match range.stop, upperBound bound with
    | some left, some right => some (if right < left then right else left)
    | some left, none => some left
    | none, right => right }

end KeyRange

/-- A range of one index and what bounds it. -/
structure IndexRange where
  equalities : Nat
  lower : Bool
  upper : Bool
  range : KeyRange
  deriving DecidableEq, Repr

/-- `bound`: how many columns the range binds. -/
def IndexRange.bound (self : IndexRange) : Nat :=
  self.equalities + (if self.lower || self.upper then 1 else 0)

/-- One term of the column after the equalities. -/
def IndexRange.narrow (index : Index) (leading : List Value) (probe : IndexRange) (term : Term) :
    Except Error IndexRange :=
  match term.op with
  | .gt | .gtEq => do
      let range <- probe.range.withLower index.name leading index.collations term.value
      return { probe with range, lower := true }
  | .lt | .ltEq => do
      let range <- probe.range.withUpper index.name leading index.collations term.value
      return { probe with range, upper := true }
  | _ => .ok probe

def indexProbe (table : Table) (index : Index) (terms : List Term) :
    Except Error (Option IndexRange) := do
  let ordinals <- indexOrdinals table index
  let leading := leadingEqualities table index terms 0 ordinals
  let range <- KeyRange.equality index.name leading index.collations
  let start : IndexRange := ⟨leading.length, false, false, range⟩
  let probe <-
    match ordinals[leading.length]? with
    | none => .ok start
    | some ordinal =>
      (terms.filter fun term => usableTerm table index term ordinal leading.length).foldlM
        (IndexRange.narrow index leading) start
  return if probe.bound = 0 then none else some probe

/-- The better of the best index so far and the next one. -/
def betterIndex (table : Table) (terms : List Term) (best : Option (Index × IndexRange))
    (index : Index) : Except Error (Option (Index × IndexRange)) := do
  match <- indexProbe table index terms with
  | none => return best
  | some probe =>
    return if best.all fun (_, best) => decide (best.bound < probe.bound) then some (index, probe)
      else best

def chooseIndex (catalog : Catalog) (table : Table) (filter : Option Expr) (params : List Value) :
    Except Error (Option (Index × IndexRange)) :=
  match filter with
  | none => .ok none
  | some filter =>
    let terms := collectConjuncts params table filter
    if terms.isEmpty then .ok none
    else ((catalog.indexesFor table.name).filter (·.kind == .btree)).foldlM
      (betterIndex table terms) none

/-! ## The candidates -/

/-- The rows some ids name, a missing one skipped. -/
def Storage.fetch (self : Storage) (table : String) (ids : List RowId) : List (RowId × Row) :=
  ids.filterMap fun id => (self.getRow table id).map (id, ·)

/-- `candidate_rows`: what `candidate_bytes` yields for a table with row ids. -/
def candidateRows (storage : Storage) (catalog : Catalog) (table : Table) (filter : Option Expr)
    (params : List Value) : Except Error (List (RowId × Row)) :=
  match pinnedRowid table filter params with
  | some id => .ok (storage.fetch table.name [id])
  | none => do
      match <- chooseIndex catalog table filter params with
      | some (_, probe) =>
        return storage.fetch table.name
          ((storage.scanIndexRowIds probe.range).mergeSort fun left right => decide (left ≤ right))
      | none => return storage.rows table.name

/-! ## What an admitted row satisfies -/

section Conjuncts

variable {env : Env} {table : Table} {row : Row}

theorem evaluate_withoutCollate (expr : Expr) :
    expr.withoutCollate.evaluate env row = expr.evaluate env row := by
  induction expr with
  | collate expr collation ih => simpa [Expr.withoutCollate, Expr.evaluate] using ih
  | _ => rfl

theorem affinityOf_withoutCollate (expr : Expr) :
    expr.withoutCollate.affinityOf table = expr.affinityOf table := by
  induction expr with
  | collate expr collation ih => simpa [Expr.withoutCollate, Expr.affinityOf] using ih
  | _ => rfl

variable {expr : Expr} {value : Value} {numerals : Numerals} {op : BinaryOp} {collation : Collation}

theorem Expr.Planned.withoutCollate (planned : expr.Planned table) :
    expr.withoutCollate.Planned table := by
  induction expr with
  | collate expr collation ih => exact ih planned
  | _ => exact planned

theorem resolveOperand_spec (row : Row) {params : List Value} (isParams : env.params = params)
    (paramsFit : ∀ value ∈ params, value.Fits) (planned : expr.Planned table)
    (resolved : resolveOperand params expr.withoutCollate = some value) :
    expr.evaluate env row = .ok value ∧ expr.affinityOf table = none ∧ value.Fits := by
  rw [<- evaluate_withoutCollate, <- affinityOf_withoutCollate]
  have planned := planned.withoutCollate
  generalize expr.withoutCollate = bare at planned resolved
  subst isParams
  cases bare with
  | literal found =>
    obtain rfl := Option.some.inj resolved
    exact ⟨rfl, rfl, planned⟩
  | param index =>
    have found : env.params[index]? = some value := resolved
    refine ⟨by rw [Expr.evaluate, found], rfl, paramsFit value (List.mem_of_getElem? found)⟩
  | column | binary | collate | between | other => cases resolved

/-- The operand of a comparison after its affinity conversion. -/
def converted (env : Env) (affinity : CompareAffinity) (value : Value) : Value :=
  (env.numerals.affinityConversion value affinity).getD value

/-- A column's value compares with a term's, from either side. -/
def Compared (left right : Value) (collation : Collation) (ordering : Ordering) : Prop :=
  classCompare left right collation = .ok ordering ∨
    classCompare right left collation = .ok ordering.swap

/-- The comparison a term stands for is true of the row. -/
def Term.Holds (env : Env) (table : Table) (row : Row) (term : Term) : Prop :=
  ∃ cell ordering, row[term.ordinal]? = some cell ∧ cell ≠ .null ∧
    (let affinity := combineAffinity (table.affinityAt term.ordinal) none
    Compared (converted env affinity cell) (converted env affinity term.value) term.collation
      ordering) ∧
    verdict term.op ordering = true

theorem compareCells_truthy {left right : Value} {affinity : CompareAffinity}
    (compared : numerals.compareCells op left right collation affinity = .ok value)
    (truthy : numerals.isTruthy value = true) :
    left ≠ .null ∧ right ≠ .null ∧ ∃ ordering,
      classCompare ((numerals.affinityConversion left affinity).getD left)
        ((numerals.affinityConversion right affinity).getD right) collation = .ok ordering ∧
      verdict op ordering = true := by
  unfold Numerals.compareCells at compared
  split at compared
  · obtain rfl := Except.ok.inj compared
    cases truthy
  · rename_i notNull
    obtain ⟨ordering, isOrdering, rest⟩ := bind_eq_ok compared
    obtain rfl := Except.ok.inj rest
    refine ⟨fun null => notNull (by simp [null, Value.isNull]),
      fun null => notNull (by simp [null, Value.isNull]), ordering, isOrdering, ?_⟩
    by_contra no
    simp [no, Numerals.isTruthy, Numerals.truth] at truthy

theorem isTruthy_logicalAnd {left right : Value} :
    numerals.isTruthy (numerals.logicalAnd left right) = true ↔
      numerals.isTruthy left = true ∧ numerals.isTruthy right = true := by
  unfold Numerals.logicalAnd Numerals.isTruthy
  cases numerals.truth left with
  | none => cases numerals.truth right with
    | none => simp [Numerals.truth]
    | some right => cases right <;> simp [Numerals.truth]
  | some left => cases left <;> cases numerals.truth right with
    | none => simp [Numerals.truth]
    | some right => cases right <;> simp [Numerals.truth]

theorem combineAffinity_comm (left right : Option CastType) :
    combineAffinity left right = combineAffinity right left := by
  simp only [combineAffinity, Bool.or_comm]

theorem verdict_flip (op : BinaryOp) (ordering : Ordering) :
    verdict op.flip ordering.swap = verdict op ordering := by
  cases op <;> cases ordering <;> rfl

theorem evaluate_column (table : Table) {ordinal : Nat}
    (isColumn : expr.withoutCollate = .column ordinal)
    (evaluated : expr.evaluate env row = .ok value) :
    row[ordinal]? = some value ∧ expr.affinityOf table = table.affinityAt ordinal := by
  rw [<- evaluate_withoutCollate, isColumn, Expr.evaluate] at evaluated
  rw [<- affinityOf_withoutCollate, isColumn]
  refine ⟨?_, rfl⟩
  split at evaluated
  · rename_i found
    rw [found, Except.ok.inj evaluated]
  · cases evaluated

variable {params : List Value} (isParams : env.params = params)
  (paramsFit : ∀ value ∈ params, value.Fits)

include isParams paramsFit

theorem Term.Holds.of_comparison {left right : Expr} {leftValue rightValue : Value} {term : Term}
    (leftPlanned : left.Planned table) (rightPlanned : right.Planned table)
    (isLeft : left.evaluate env row = .ok leftValue)
    (isRight : right.evaluate env row = .ok rightValue)
    (compared : env.numerals.compareCells op leftValue rightValue collation
      (compareAffinity table left right) = .ok value)
    (truthy : env.numerals.isTruthy value = true)
    (isTerm : comparisonTerm params table op left right collation = some term) :
    term.Holds env table row ∧ term.value.Fits := by
  obtain ⟨leftNotNull, rightNotNull, ordering, isOrdering, decided⟩ :=
    compareCells_truthy compared truthy
  unfold comparisonTerm at isTerm
  split at isTerm
  case h_1 _ _ ordinal isColumn =>
    split at isTerm
    · obtain ⟨operand, resolved, rfl⟩ := Option.map_eq_some_iff.mp isTerm
      obtain ⟨evaluated, noAffinity, fits⟩ :=
        resolveOperand_spec row isParams paramsFit rightPlanned resolved
      obtain rfl : rightValue = operand := Except.ok.inj (isRight.symm.trans evaluated)
      obtain ⟨found, affinity⟩ := evaluate_column table isColumn isLeft
      rw [compareAffinity, affinity, noAffinity] at isOrdering
      exact ⟨⟨leftValue, ordering, found, leftNotNull, .inl isOrdering, decided⟩, fits⟩
    · split at isTerm
      · split at isTerm
        · cases isTerm
        · cases isTerm
      · cases isTerm
  case h_2 _ _ ordinal isColumn _ =>
    split at isTerm
    · obtain ⟨operand, resolved, rfl⟩ := Option.map_eq_some_iff.mp isTerm
      obtain ⟨evaluated, noAffinity, fits⟩ :=
        resolveOperand_spec row isParams paramsFit leftPlanned resolved
      obtain rfl : leftValue = operand := Except.ok.inj (isLeft.symm.trans evaluated)
      obtain ⟨found, affinity⟩ := evaluate_column table isColumn isRight
      rw [compareAffinity, affinity, noAffinity, combineAffinity_comm] at isOrdering
      refine ⟨⟨rightValue, ordering.swap, found, rightNotNull, .inr ?_, ?_⟩, fits⟩
      · rw [Ordering.swap_swap]
        exact isOrdering
      · rw [<- decided]
        exact verdict_flip op ordering
    · cases isTerm
  case h_3 => cases isTerm

theorem Term.Holds.of_bound {bound : Expr} {ordinal : Nat} {cell operand : Value} {term : Term}
    (boundPlanned : bound.Planned table) (isColumn : expr.withoutCollate = .column ordinal)
    (isCell : expr.evaluate env row = .ok cell) (isBound : bound.evaluate env row = .ok operand)
    (compared : env.numerals.compareCells op cell operand collation
      (compareAffinity table expr bound) = .ok value)
    (truthy : env.numerals.isTruthy value = true)
    (member : term ∈ boundTerm params ordinal op bound collation) :
    term.Holds env table row ∧ term.value.Fits := by
  obtain ⟨notNull, -, ordering, isOrdering, decided⟩ := compareCells_truthy compared truthy
  unfold boundTerm at member
  split at member
  · rename_i found resolved
    obtain rfl := List.mem_singleton.mp member
    obtain ⟨evaluated, noAffinity, fits⟩ :=
      resolveOperand_spec row isParams paramsFit boundPlanned resolved
    obtain rfl : operand = found := Except.ok.inj (isBound.symm.trans evaluated)
    obtain ⟨isFound, affinity⟩ := evaluate_column table isColumn isCell
    rw [compareAffinity, affinity, noAffinity] at isOrdering
    exact ⟨⟨cell, ordering, isFound, notNull, .inl isOrdering, decided⟩, fits⟩
  · cases member

theorem collectConjuncts_holds {filter : Expr} (planned : filter.Planned table)
    (evaluated : filter.evaluate env row = .ok value)
    (truthy : env.numerals.isTruthy value = true) :
    ∀ term ∈ collectConjuncts params table filter, term.Holds env table row ∧ term.value.Fits := by
  induction filter generalizing value with
  | literal | param | column | collate | other =>
    intro term member
    cases member
  | between negated expr low high lowCollation highCollation lowAffinity highAffinity =>
    intro term member
    cases negated with
    | true => cases member
    | false =>
      obtain ⟨-, lowPlanned, highPlanned, rfl, rfl⟩ := planned
      obtain ⟨cell, isCell, evaluated⟩ := bind_eq_ok evaluated
      obtain ⟨lowValue, isLow, evaluated⟩ := bind_eq_ok evaluated
      obtain ⟨highValue, isHigh, evaluated⟩ := bind_eq_ok evaluated
      obtain ⟨lower, isLower, evaluated⟩ := bind_eq_ok evaluated
      obtain ⟨upper, isUpper, evaluated⟩ := bind_eq_ok evaluated
      obtain rfl := Except.ok.inj evaluated
      obtain ⟨lowerTruthy, upperTruthy⟩ := isTruthy_logicalAnd.mp truthy
      unfold collectConjuncts at member
      split at member
      · rename_i ordinal isColumn
        split at member
        · rcases List.mem_append.mp member with member | member
          · exact Term.Holds.of_bound isParams paramsFit lowPlanned isColumn isCell isLow
              isLower lowerTruthy member
          · exact Term.Holds.of_bound isParams paramsFit highPlanned isColumn isCell isHigh
              isUpper upperTruthy member
        · cases member
      · cases member
  | binary op left right collation affinity leftIh rightIh =>
    intro term member
    obtain ⟨leftPlanned, rightPlanned, isAffinity⟩ := planned
    obtain ⟨leftValue, isLeft, evaluated⟩ := bind_eq_ok evaluated
    obtain ⟨rightValue, isRight, evaluated⟩ := bind_eq_ok evaluated
    have comparison : op.isIndexable = true -> op.isComparison = true ->
        env.numerals.compareCells op leftValue rightValue collation affinity = .ok value ->
        term ∈ (comparisonTerm params table op left right collation).toList ->
        term.Holds env table row ∧ term.value.Fits := by
      intro _ isComparison compared member
      rw [isAffinity isComparison] at compared
      exact Term.Holds.of_comparison isParams paramsFit leftPlanned rightPlanned isLeft isRight
        compared truthy (Option.mem_toList.mp member)
    cases op with
    | and =>
      obtain rfl := Except.ok.inj evaluated
      obtain ⟨leftTruthy, rightTruthy⟩ := isTruthy_logicalAnd.mp truthy
      rcases List.mem_append.mp member with member | member
      · exact leftIh leftPlanned isLeft leftTruthy term member
      · exact rightIh rightPlanned isRight rightTruthy term member
    | eq | lt | ltEq | gt | gtEq => exact comparison rfl rfl evaluated member
    | notEq | add | sub | mul | div | mod | or | concat | jsonExtractJson | jsonExtractText =>
      cases member

omit isParams paramsFit in
theorem resolveOperand_of_integerKey {key : Int} (isKey : integerKey params expr = some key) :
    resolveOperand params expr = some (.integer key) := by
  cases expr with
  | literal value =>
    cases value with
    | integer found => exact congrArg _ (congrArg _ (Option.some.inj isKey))
    | _ => cases isKey
  | param index =>
    simp only [integerKey] at isKey
    split at isKey
    · rename_i found isFound
      rw [resolveOperand, isFound, Option.some.inj isKey]
    · cases isKey
  | column | binary | collate | between | other => cases isKey

omit isParams paramsFit in
theorem comparisonTerm_of_pinnedKey {aliased : Nat} {id : RowId} {left right : Expr}
    (inside : aliased < table.columns.length)
    (pinned : pinnedKey params aliased left right = some id) :
    comparisonTerm params table .eq left right collation =
      some ⟨aliased, .eq, .integer id, collation⟩ := by
  have integer : ∀ {expr : Expr}, (integerKey params expr).bind rowIdOfInt = some id ->
      resolveOperand params expr = some (.integer id) := by
    intro expr isKey
    obtain ⟨key, found, isId⟩ := Option.bind_eq_some_iff.mp isKey
    unfold rowIdOfInt at isId
    split at isId
    · rename_i positive
      rw [resolveOperand_of_integerKey found, <- Option.some.inj isId]
      simp [Int.toNat_of_nonneg positive]
    · cases isId
  unfold pinnedKey at pinned
  unfold comparisonTerm
  split at pinned
  · split at pinned
    · rename_i isAlias
      subst isAlias
      simp only [inside, if_true, integer pinned, Option.map_some]
    · split at pinned
      · split at pinned <;> cases pinned
      · cases pinned
  · rename_i ordinal isColumn notColumn
    split at pinned
    · rename_i isAlias
      subst isAlias
      simp only [inside, if_true, integer pinned, Option.map_some]
      rfl
    · cases pinned
  · cases pinned

theorem pinnedWalk_spec {aliased : Nat} {id : RowId} {filter : Expr}
    (isInteger : table.affinityAt aliased = some .integer) (planned : filter.Planned table)
    (evaluated : filter.evaluate env row = .ok value)
    (truthy : env.numerals.isTruthy value = true)
    (pinned : pinnedWalk params aliased filter = some id)
    (stored : ∀ cell, row[aliased]? = some cell -> cell = .null ∨ ∃ key, cell = .integer key) :
    row[aliased]? = some (.integer id) := by
  induction filter generalizing value with
  | literal | param | column | collate | between | other => cases pinned
  | binary op left right collation affinity leftIh rightIh =>
    obtain ⟨leftPlanned, rightPlanned, isAffinity⟩ := planned
    obtain ⟨leftValue, isLeft, evaluated⟩ := bind_eq_ok evaluated
    obtain ⟨rightValue, isRight, evaluated⟩ := bind_eq_ok evaluated
    cases op with
    | and =>
      obtain rfl := Except.ok.inj evaluated
      obtain ⟨leftTruthy, rightTruthy⟩ := isTruthy_logicalAnd.mp truthy
      rcases Option.or_eq_some_iff.mp pinned with pinned | ⟨-, pinned⟩
      · exact leftIh leftPlanned isLeft leftTruthy pinned
      · exact rightIh rightPlanned isRight rightTruthy pinned
    | eq =>
      have inside : aliased < table.columns.length := by
        by_contra outside
        rw [Table.affinityAt, List.getElem?_eq_none (by omega)] at isInteger
        cases isInteger
      rw [isAffinity rfl] at evaluated
      obtain ⟨⟨cell, ordering, found, notNull, compared, decided⟩, -⟩ :=
        Term.Holds.of_comparison isParams paramsFit leftPlanned rightPlanned isLeft isRight
          evaluated truthy (comparisonTerm_of_pinnedKey inside pinned)
      obtain rfl : ordering = .eq := by
        cases ordering <;> first | rfl | cases decided
      obtain null | ⟨key, rfl⟩ := stored cell found
      · exact absurd null notNull
      · have numeric : combineAffinity (table.affinityAt aliased) none = .numeric := by
          rw [isInteger]
          rfl
        simp only [numeric] at compared
        have same : key = id := by
          rcases compared with compared | compared
          · exact compare_eq_iff_eq.mp (Except.ok.inj compared)
          · exact (compare_eq_iff_eq.mp (Except.ok.inj compared)).symm
        rw [found, same]
    | notEq | lt | ltEq | gt | gtEq | add | sub | mul | div | mod | or | concat
    | jsonExtractJson | jsonExtractText => cases pinned

end Conjuncts

end InlaySql.Sql
