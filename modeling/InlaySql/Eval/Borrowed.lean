import InlaySql.Eval.Evaluate

/-!
# Evaluation over a borrowed row, and compiled filters

The filter stage evaluates a predicate over cells borrowed from a row, and compiles a
`WHERE` into the conjuncts it is made of. Both answer what evaluation over the owned row
answers: the value, the error, and what is left of the statement.
-/

namespace InlaySql.Eval

open Lib Sql

variable {Plan World : Type}

/-! ## The borrowed evaluator -/

/-- The cell at an index of a borrowed row. -/
def readCell (row : List ValueRef) (index : Nat) : Except Error ValueRef :=
  match row[index]? with
  | some cell => .ok cell
  | none => .error (missingColumn index row.length)

/-- `eval_operand`: a column is borrowed, everything else is evaluated. -/
def evalOperand (row : List ValueRef) (expr : Expr Plan) (evaluated : Evaluation World Value) :
    Evaluation World Operand :=
  match expr with
  | .column index => do
      let cell <- settle (readCell row index)
      return .ref cell
  | _ => do
      let value <- evaluated
      return .owned value

section

variable (env : Env Plan World) (computed : Computed) (row : List ValueRef)

/-- The fallback: the row is materialised and handed to `evaluate`. -/
def evaluateOwned (expr : Expr Plan) : Evaluation World Value :=
  evaluate env computed (row.map ValueRef.toOwnedValue) expr

def evaluateRef (expr : Expr Plan) : Evaluation World Value :=
  match expr with
  | .literal value => pure value
  | .param index => settle (env.param index)
  | .column index => do
      let cell <- settle (readCell row index)
      return cell.toOwnedValue
  | .outer index => settle (env.captured index)
  | .agg index => settle (computed.aggregate index)
  | .window index => settle (computed.window index)
  | .unary op operand =>
    match op with
    | .not => do
        let value <- evaluateRef operand
        return env.library.host.numerals.logicalNot value
    | .isNull => do
        let cell <- evalOperand row operand (evaluateRef operand)
        return ofBool (isNullCell cell)
    | .isNotNull => do
        let cell <- evalOperand row operand (evaluateRef operand)
        return ofBool !(isNullCell cell)
    | .neg => evaluateOwned env computed row (.unary .neg operand)
  | .binary op left right collation affinity =>
    match op with
    -- `compare_operands`
    | .eq | .notEq | .lt | .ltEq | .gt | .gtEq => do
        let left <- evalOperand row left (evaluateRef left)
        let right <- evalOperand row right (evaluateRef right)
        settle (compareCells env.library.host op left right collation affinity)
    | .and => do
        let left <- evaluateRef left
        let right <- evaluateRef right
        return env.library.host.numerals.logicalAnd left right
    | .or => do
        let left <- evaluateRef left
        let right <- evaluateRef right
        return env.library.host.numerals.logicalOr left right
    | op => evaluateOwned env computed row (.binary op left right collation affinity)
  | expr => evaluateOwned env computed row expr

-- The equations are worked out here, once for all the proofs below.
attribute [local simp] evaluateRef

end

/-! ## The compiled filter -/

/-- One term of a compiled conjunction. -/
inductive Conjunct (Plan : Type) where
  | compare (ordinal : Nat) (op : BinaryOp) (columnOnLeft : Bool) (constant : Operand)
      (collation : Collation) (affinity : CompareAffinity)
  | isNull (ordinal : Nat) (negated : Bool)
  | general (expr : Expr Plan)

/-- A filter, compiled once for an execution. -/
structure CompiledFilter (Plan : Type) where
  conjuncts : List (Conjunct Plan)

namespace CompiledFilter

/-- What does not depend on the row: a literal, or a parameter that is bound. -/
def constant (env : Env Plan World) : Expr Plan -> Option Value
  | .literal value => some value
  | .param index => env.params[index]?
  | _ => none

/-- The column and the constant of a comparison that has both. -/
def columnAndConstant (env : Env Plan World) (left right : Expr Plan) :
    Option (Nat × Value × Bool) :=
  match left, right with
  | .column ordinal, other => (constant env other).map fun value => (ordinal, value, true)
  | other, .column ordinal => (constant env other).map fun value => (ordinal, value, false)
  | _, _ => none

/-- A constant, converted once. -/
def hoist (host : Host) (value : Value) (affinity : CompareAffinity) : Operand :=
  match affinityConversion host value affinity with
  | some converted => .owned converted
  | none => .ref (.ofValue value)

def conjunct (env : Env Plan World) (expr : Expr Plan) : Conjunct Plan :=
  match expr with
  | .binary op left right collation affinity =>
    match op with
    | .eq | .notEq | .lt | .ltEq | .gt | .gtEq =>
      match columnAndConstant env left right with
      | some (ordinal, value, columnOnLeft) =>
        .compare ordinal op columnOnLeft (hoist env.library.host value affinity) collation
          affinity
      | none => .general expr
    | _ => .general expr
  | .unary .isNull (.column ordinal) => .isNull ordinal false
  | .unary .isNotNull (.column ordinal) => .isNull ordinal true
  | other => .general other

/-- `flatten`: the top-level `AND`s, left to right. -/
def flatten (env : Env Plan World) (expr : Expr Plan) (out : List (Conjunct Plan)) :
    List (Conjunct Plan) :=
  match expr with
  | .binary op left right collation affinity =>
    match op with
    | .and => flatten env right (flatten env left out)
    | op => out ++ [conjunct env (.binary op left right collation affinity)]
  | other => out ++ [conjunct env other]

def compile (filter : Expr Plan) (env : Env Plan World) : CompiledFilter Plan :=
  ⟨flatten env filter []⟩

/-- The ordering of `compare_compiled`: the operands stay in their written order. -/
def compiledOrdering (host : Host) (columnOnLeft : Bool) (cell : ValueRef) (constant : Operand)
    (collation : Collation) (affinity : CompareAffinity) : Except Error Ordering :=
  match affinityConversion host cell affinity, columnOnLeft with
  | some value, true => classCompare value constant collation
  | some value, false => classCompare constant value collation
  | none, true => classCompare cell constant collation
  | none, false => classCompare constant cell collation

def compareCompiled (host : Host) (op : BinaryOp) (columnOnLeft : Bool) (cell : ValueRef)
    (constant : Operand) (collation : Collation) (affinity : CompareAffinity) :
    Except Error (Option Bool) :=
  if cell.isNull || isNullCell constant then .ok none
  else do
    let ordering <- compiledOrdering host columnOnLeft cell constant collation affinity
    return some (verdict op ordering)

/-- What a conjunct says of a row, three-valued. -/
def conjunctTruth (env : Env Plan World) (row : List ValueRef) :
    Conjunct Plan -> Evaluation World (Option Bool)
  | .compare ordinal op columnOnLeft constant collation affinity => do
      let cell <- settle (readCell row ordinal)
      settle (compareCompiled env.library.host op columnOnLeft cell constant collation affinity)
  | .isNull ordinal negated => do
      let cell <- settle (readCell row ordinal)
      return some (cell.isNull != negated)
  | .general expr => do
      let value <- evaluateRef env .none row expr
      return env.library.truth value

/-- The loop of `admits`: no conjunct is passed over, for a later one may fail. -/
def admitsFrom (env : Env Plan World) (row : List ValueRef) (allTrue : Bool) :
    List (Conjunct Plan) -> Evaluation World Bool
  | [] => pure allTrue
  | conjunct :: rest => do
      let truth <- conjunctTruth env row conjunct
      admitsFrom env row (allTrue && truth == some true) rest

def admits (filter : CompiledFilter Plan) (row : List ValueRef) (env : Env Plan World) :
    Evaluation World Bool :=
  admitsFrom env row true filter.conjuncts

end CompiledFilter

/-! ## The borrowed evaluator agrees -/

section

variable (env : Env Plan World) (computed : Computed) (row : List ValueRef)

theorem settle_bind_pure {α β : Type} (result : Except Error α) (f : α -> β) :
    (settle result >>= fun value => pure (f value) : Evaluation World β) =
      settle (result.map f) := by
  cases result <;> rfl

theorem readCell_owned (index : Nat) : (readCell row index).map ValueRef.toOwnedValue =
      readColumn (row.map ValueRef.toOwnedValue) index := by
  unfold readCell readColumn
  rw [List.getElem?_map]
  cases row[index]? with
  | none => simp [Except.map]
  | some cell => rfl

theorem evalOperand_bind {β : Type} (expr : Expr Plan) {next : Operand -> Evaluation World β}
    {then' : Value -> Evaluation World β} (same : ∀ operand, next operand = then' operand.value) :
    evalOperand row expr (evaluateRef env computed row expr) >>= next =
      evaluateRef env computed row expr >>= then' := by
  cases expr with
  | column index => simp [evalOperand, evaluateRef, same, Operand.value]
  | _ => simp [evalOperand, same, Operand.value]

theorem compareOperands_eq (op : BinaryOp) (left right : Expr Plan) (collation : Collation)
    (affinity : CompareAffinity) :
    (do
      let left <- evalOperand row left (evaluateRef env computed row left)
      let right <- evalOperand row right (evaluateRef env computed row right)
      settle (compareCells env.library.host op left right collation affinity)) =
    (do
      let left <- evaluateRef env computed row left
      let right <- evaluateRef env computed row right
      settle (comparison env.library.host op left right collation affinity)) := by
  refine evalOperand_bind env computed row left fun first => ?_
  refine evalOperand_bind env computed row right fun second => ?_
  rw [first.reads.compareCells second.reads]

theorem evaluateRef_eq (expr : Expr Plan) : evaluateRef env computed row expr =
      evaluate env computed (row.map ValueRef.toOwnedValue) expr := by
  match expr with
  | .literal value => rw [evaluateRef, evaluate]
  | .param index => rw [evaluateRef, evaluate]
  | .column index =>
    rw [evaluateRef, evaluate, settle_bind_pure, readCell_owned]
  | .outer index => rw [evaluateRef, evaluate]
  | .agg index => rw [evaluateRef, evaluate]
  | .window index => rw [evaluateRef, evaluate]
  | .unary op operand =>
    have operandEq := evaluateRef_eq operand
    cases op with
    | neg => rfl
    | not =>
      rw [evaluateRef, evaluate, operandEq]
      rfl
    | isNull =>
      rw [evaluateRef, evaluate, <- operandEq]
      refine evalOperand_bind env computed row operand fun cell => ?_
      rw [cell.reads.isNullCell]
      rfl
    | isNotNull =>
      rw [evaluateRef, evaluate, <- operandEq]
      refine evalOperand_bind env computed row operand fun cell => ?_
      rw [cell.reads.isNullCell]
      rfl
  | .binary op left right collation affinity =>
    have leftEq := evaluateRef_eq left
    have rightEq := evaluateRef_eq right
    cases op with
    | eq | notEq | lt | ltEq | gt | gtEq =>
      rw [evaluateRef, evaluate, <- leftEq, <- rightEq]
      exact compareOperands_eq env computed row _ left right collation affinity
    | and | or =>
      rw [evaluateRef, evaluate, <- leftEq, <- rightEq]
      rfl
    | add | sub | mul | div | mod | concat | jsonExtractJson | jsonExtractText => rfl
  | .collate operand collation => rfl
  | .like negated operand pattern escape => rfl
  | .inList negated operand list collation affinity => rfl
  | .between negated operand low high lowCollation highCollation lowAffinity highAffinity => rfl
  | .case operand branches elseResult collations affinities => rfl
  | .cast operand target => rfl
  | .func func args collation => rfl
  | .subquery op query => rfl

end

/-! ## The compiled filter agrees -/

namespace CompiledFilter

variable (env : Env Plan World) (row : List ValueRef)

variable (host : Host) (value : Value) (affinity : CompareAffinity) (op : BinaryOp)
  {right : Expr Plan} {columnOnLeft : Bool}

theorem truth_ofBool (truth : Bool) : host.numerals.truth (ofBool truth) = some truth := by
  cases truth <;> rfl

theorem hoist_value : (hoist host value affinity).value = compared host value affinity := by
  unfold hoist compared
  cases affinityConversion host value affinity with
  | none => exact ValueRef.toOwnedValue_ofValue value
  | some converted => rfl

theorem hoist_reads : Reads (hoist host value affinity) (compared host value affinity) := by
  have reads := (hoist host value affinity).reads
  rwa [hoist_value] at reads

theorem compiledOrdering_eq (columnOnLeft : Bool) (cell : ValueRef) (value : Value)
    (collation : Collation) (affinity : CompareAffinity) :
    compiledOrdering host columnOnLeft cell (hoist host value affinity) collation affinity =
      if columnOnLeft then
        classCompare (compared host cell.toOwnedValue affinity) (compared host value affinity)
          collation
      else
        classCompare (compared host value affinity) (compared host cell.toOwnedValue affinity)
          collation := by
  have constantReads := hoist_reads host value affinity
  unfold compiledOrdering compared at *
  rw [cell.reads.affinityConversion host affinity]
  cases affinityConversion host cell.toOwnedValue affinity with
  | none =>
    cases columnOnLeft with
    | true => exact cell.reads.classCompare constantReads collation
    | false => exact constantReads.classCompare cell.reads collation
  | some converted =>
    cases columnOnLeft with
    | true => exact (Reads.refl converted).classCompare constantReads collation
    | false => exact constantReads.classCompare (Reads.refl converted) collation

theorem verdict_truth (result : Except Error Ordering) :
    (do return some (verdict op (<- result)) : Except Error (Option Bool)) =
      (do return ofBool (verdict op (<- result)) : Except Error Value).map host.numerals.truth := by
  cases result with
  | error error => rfl
  | ok ordering => exact congrArg Except.ok (truth_ofBool host (verdict op ordering)).symm

theorem compareCompiled_eq (columnOnLeft : Bool) (cell : ValueRef) (value : Value)
    (collation : Collation) (affinity : CompareAffinity) :
    compareCompiled host op columnOnLeft cell (hoist host value affinity) collation affinity =
      (if columnOnLeft then comparison host op cell.toOwnedValue value collation affinity
        else comparison host op value cell.toOwnedValue collation affinity).map
          host.numerals.truth := by
  have constantNull : isNullCell (hoist host value affinity) = value.isNull := by
    rw [(hoist_reads host value affinity).isNullCell, compared_isNull]
  have cellNull : cell.isNull = cell.toOwnedValue.isNull := cell.reads.isNullCell
  unfold compareCompiled comparison compareCells
  rw [compiledOrdering_eq, constantNull, cellNull]
  simp only [converted_value]
  cases columnOnLeft with
  | true =>
    change _ = Except.map _ (if cell.toOwnedValue.isNull || value.isNull then _ else _)
    split
    · rfl
    · exact verdict_truth host op _
  | false =>
    change _ = Except.map _ (if value.isNull || cell.toOwnedValue.isNull then _ else _)
    rw [Bool.or_comm value.isNull]
    split
    · rfl
    · exact verdict_truth host op _

theorem isTruthy_logicalAnd (left right : Value) :
    host.numerals.isTruthy (host.numerals.logicalAnd left right) =
      (host.numerals.isTruthy left && host.numerals.isTruthy right) := by
  unfold Numerals.isTruthy Numerals.logicalAnd
  rcases host.numerals.truth left with _ | _ | _ <;>
    rcases host.numerals.truth right with _ | _ | _ <;> rfl

/-! ### One conjunct -/

theorem columnAndConstant_eq {left : Expr Plan} {ordinal : Nat} {value : Value}
    (shape : columnAndConstant env left right = some (ordinal, value, columnOnLeft)) :
    if columnOnLeft then left = .column ordinal ∧ constant env right = some value
    else constant env left = some value ∧ right = .column ordinal := by
  unfold columnAndConstant at shape
  split at shape
  · obtain ⟨found, isConstant, same⟩ := Option.map_eq_some_iff.mp shape
    cases same
    exact ⟨rfl, isConstant⟩
  · obtain ⟨found, isConstant, same⟩ := Option.map_eq_some_iff.mp shape
    cases same
    exact ⟨isConstant, rfl⟩
  · cases shape

theorem evaluateRef_constant {expr : Expr Plan} {value : Value}
    (isConstant : constant env expr = some value) (computed : Computed) :
    evaluateRef env computed row expr = pure value := by
  unfold constant at isConstant
  split at isConstant
  · cases isConstant
    rw [evaluateRef]
  · rw [evaluateRef, Env.param, isConstant]
    rfl
  · cases isConstant

theorem conjunctTruth_compare {left : Expr Plan} {ordinal : Nat} {value : Value}
    (collation : Collation) (affinity : CompareAffinity)
    (shape : columnAndConstant env left right = some (ordinal, value, columnOnLeft)) :
    conjunctTruth env row (.compare ordinal op columnOnLeft
        (hoist env.library.host value affinity) collation affinity) =
      (do
        let left <- evaluateRef env .none row left
        let right <- evaluateRef env .none row right
        let value <- settle (comparison env.library.host op left right collation affinity)
        return env.library.truth value) := by
  have parts := columnAndConstant_eq env shape
  have column : evaluateRef env .none row (.column ordinal) = (do
      let cell <- settle (readCell row ordinal)
      return cell.toOwnedValue) := by rw [evaluateRef]
  cases columnOnLeft with
  | true =>
    obtain ⟨rfl, isConstant⟩ := parts
    rw [column, evaluateRef_constant env row isConstant, bind_assoc]
    refine bind_congr fun cell => ?_
    rw [compareCompiled_eq, pure_bind, pure_bind]
    exact (settle_bind_pure _ _).symm
  | false =>
    obtain ⟨isConstant, rfl⟩ := parts
    rw [column, evaluateRef_constant env row isConstant, pure_bind, bind_assoc]
    refine bind_congr fun cell => ?_
    rw [compareCompiled_eq, pure_bind]
    exact (settle_bind_pure _ _).symm

theorem conjunctTruth_isNull (ordinal : Nat) (negated : Bool) :
    conjunctTruth env row (.isNull ordinal negated) = (do
        let value <- evaluateRef env .none row
          (.unary (if negated then .isNotNull else .isNull) (.column ordinal))
        return env.library.truth value) := by
  have known : ∀ cell : ValueRef, env.library.truth (ofBool (cell.isNull != negated)) =
      some (cell.isNull != negated) := fun cell => truth_ofBool env.library.host _
  cases negated with
  | true =>
    simp only [if_true, evaluateRef, evalOperand, bind_assoc, pure_bind]
    refine bind_congr fun cell => ?_
    rw [<- known cell, Bool.bne_true]
    rfl
  | false =>
    simp only [Bool.false_eq_true, if_false, evaluateRef, evalOperand, bind_assoc, pure_bind]
    refine bind_congr fun cell => ?_
    rw [<- known cell, Bool.bne_false]
    rfl

theorem conjunctTruth_conjunct (expr : Expr Plan) : conjunctTruth env row (conjunct env expr) = (do
        let value <- evaluateRef env .none row expr
        return env.library.truth value) := by
  cases expr with
  | binary op left right collation affinity =>
    cases op with
    | eq | notEq | lt | ltEq | gt | gtEq =>
      cases shape : columnAndConstant env left right with
      | none =>
        simp only [conjunct, shape]
        rfl
      | some found =>
        simp only [conjunct, shape, evaluateRef, compareOperands_eq, bind_assoc]
        exact conjunctTruth_compare env row _ collation affinity shape
    | and | or | add | sub | mul | div | mod | concat | jsonExtractJson | jsonExtractText => rfl
  | unary op operand =>
    cases op with
    | isNull =>
      cases operand with
      | column ordinal => exact conjunctTruth_isNull env row ordinal false
      | _ => rfl
    | isNotNull =>
      cases operand with
      | column ordinal => exact conjunctTruth_isNull env row ordinal true
      | _ => rfl
    | neg | not => rfl
  | _ => rfl

/-! ### The conjunction -/

theorem flatten_eq (expr : Expr Plan) (out : List (Conjunct Plan)) :
    flatten env expr out = out ++ flatten env expr [] := by
  match expr with
  | .binary .and left right collation affinity =>
    have leftEq := flatten_eq left
    have rightEq := flatten_eq right
    rw [flatten, flatten, rightEq (flatten env left out), leftEq out,
      rightEq (flatten env left []), List.append_assoc]
  | .binary .eq _ _ _ _ | .binary .notEq _ _ _ _ | .binary .lt _ _ _ _
  | .binary .ltEq _ _ _ _ | .binary .gt _ _ _ _ | .binary .gtEq _ _ _ _
  | .binary .or _ _ _ _ | .binary .add _ _ _ _ | .binary .sub _ _ _ _
  | .binary .mul _ _ _ _ | .binary .div _ _ _ _ | .binary .mod _ _ _ _
  | .binary .concat _ _ _ _ | .binary .jsonExtractJson _ _ _ _
  | .binary .jsonExtractText _ _ _ _ => rfl
  | .literal _ | .param _ | .column _ | .outer _ | .unary _ _ | .collate _ _ | .agg _
  | .window _ | .like _ _ _ _ | .inList _ _ _ _ _ | .between _ _ _ _ _ _ _ _
  | .case _ _ _ _ _ | .cast _ _ | .func _ _ _ | .subquery _ _ => rfl

theorem admitsFrom_append (allTrue : Bool) (first second : List (Conjunct Plan)) :
    admitsFrom env row allTrue (first ++ second) =
      admitsFrom env row allTrue first >>= fun sofar => admitsFrom env row sofar second := by
  induction first generalizing allTrue with
  | nil => simp [admitsFrom]
  | cons conjunct rest ih => simp [admitsFrom, ih]

theorem admitsFrom_single (allTrue : Bool) (expr : Expr Plan) :
    admitsFrom env row allTrue [conjunct env expr] = (do
        let value <- evaluateRef env .none row expr
        return allTrue && env.library.isTruthy value) := by
  simp only [admitsFrom, conjunctTruth_conjunct, bind_assoc, pure_bind]
  rfl

theorem admitsFrom_flatten (expr : Expr Plan) (allTrue : Bool) :
    admitsFrom env row allTrue (flatten env expr []) = (do
        let value <- evaluateRef env .none row expr
        return allTrue && env.library.isTruthy value) := by
  match expr with
  | .binary .and left right collation affinity =>
    have leftEq := admitsFrom_flatten left
    have rightEq := admitsFrom_flatten right
    rw [flatten, flatten_eq env right, admitsFrom_append, leftEq, evaluateRef]
    simp only [bind_assoc, pure_bind, rightEq]
    refine bind_congr fun first => bind_congr fun second => ?_
    unfold Library.isTruthy
    rw [isTruthy_logicalAnd, Bool.and_assoc]
  | .binary .eq _ _ _ _ | .binary .notEq _ _ _ _ | .binary .lt _ _ _ _
  | .binary .ltEq _ _ _ _ | .binary .gt _ _ _ _ | .binary .gtEq _ _ _ _
  | .binary .or _ _ _ _ | .binary .add _ _ _ _ | .binary .sub _ _ _ _
  | .binary .mul _ _ _ _ | .binary .div _ _ _ _ | .binary .mod _ _ _ _
  | .binary .concat _ _ _ _ | .binary .jsonExtractJson _ _ _ _
  | .binary .jsonExtractText _ _ _ _ => exact admitsFrom_single env row allTrue _
  | .literal _ | .param _ | .column _ | .outer _ | .unary _ _ | .collate _ _ | .agg _
  | .window _ | .like _ _ _ _ | .inList _ _ _ _ _ | .between _ _ _ _ _ _ _ _
  | .case _ _ _ _ _ | .cast _ _ | .func _ _ _ | .subquery _ _ =>
    exact admitsFrom_single env row allTrue _

end CompiledFilter

/-- The three evaluators agree, in the answer, in the first error and in what they leave of
the statement: over the borrowed cells as over the values, and the compiled filter as the
truth of its expression. -/
theorem evaluators_agree (env : Env Plan World) (row : List ValueRef) (expr : Expr Plan) :
    (∀ computed : Computed, evaluateRef env computed row expr =
      evaluate env computed (row.map ValueRef.toOwnedValue) expr) ∧
    (CompiledFilter.compile expr env).admits row env = (do
      let value <- evaluate env .none (row.map ValueRef.toOwnedValue) expr
      return env.library.isTruthy value) := by
  refine ⟨fun computed => evaluateRef_eq env computed row expr, ?_⟩
  rw [<- evaluateRef_eq]
  unfold CompiledFilter.compile CompiledFilter.admits
  rw [CompiledFilter.admitsFrom_flatten]
  simp only [Bool.true_and]

end InlaySql.Eval
