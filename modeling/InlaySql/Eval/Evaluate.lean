import InlaySql.Eval.Expr

/-!
# Evaluation over an owned row

`evaluate` walks an expression with a row of owned values. Every operand is evaluated,
in the order the source evaluates them; what an operator makes of the values is the
library's.
-/

namespace InlaySql.Eval

open Lib Sql

variable {Plan World : Type}

/-- `subquery_rows`: an uncorrelated subquery runs once in a statement. -/
def subqueryRows (env : Env Plan World) (query : Subquery Plan (Expr Plan))
    (maxRows : Option Nat) (captured : Evaluation World (List Value)) :
    Evaluation World (List Row) := do
  let statement <- getThe (Statement World)
  match query.captures.isEmpty, statement.memo query.id with
  | true, some cached => return cached
  | uncorrelated, _ => do
      let captured <- captured
      match env.runner with
      | none => throw (.unsupported ("a subquery cannot be evaluated here; subqueries are " ++
          "supported in SELECT (including the query of an INSERT ... SELECT), not in UPDATE, " ++
          "DELETE or INSERT ... VALUES"))
      | some run => do
          let rows <- run query.body captured maxRows
          if uncorrelated then
            modifyThe (Statement World) fun statement =>
              { statement with memo := Function.update statement.memo query.id (some rows) }
          return rows

section

variable (env : Env Plan World) (computed : Computed) (row : Row)

mutual

def evaluate (expr : Expr Plan) : Evaluation World Value :=
  match expr with
  | .literal value => pure value
  | .param index => settle (env.param index)
  | .column index => settle (readColumn row index)
  | .outer index => settle (env.captured index)
  | .subquery op ⟨id, body, captures⟩ =>
    match op with
    -- Rows after the first are ignored, and no row is `NULL`.
    | .scalar => do
        let rows <- subqueryRows env ⟨id, body, captures⟩ (some 1) (evaluateAll captures)
        return ((rows.head?.bind List.head?).getD .null)
    | .exist negated => do
        let rows <- subqueryRows env ⟨id, body, captures⟩ (some 1) (evaluateAll captures)
        return ofBool (!rows.isEmpty != negated)
    | .isIn negated probe collation affinity => do
        let rows <- subqueryRows env ⟨id, body, captures⟩ none (evaluateAll captures)
        if rows.isEmpty then return ofBool negated
        else do
          let value <- evaluate probe
          if value.isNull then return .null
          else settle (env.library.searchRows negated value collation affinity false rows)
  | .agg index => settle (computed.aggregate index)
  | .window index => settle (computed.window index)
  | .unary op operand => do
      let value <- evaluate operand
      settle (env.library.operateUnary op value)
  | .binary op left right collation affinity => do
      let left <- evaluate left
      let right <- evaluate right
      settle (env.library.operate op left right collation affinity)
  | .like negated operand pattern escape => do
      let value <- evaluate operand
      let pattern <- evaluate pattern
      match escape with
      | none => settle (env.library.like negated value pattern none)
      | some escape => do
          let escape <- evaluate escape
          if escape.isNull then return .null
          else do
            -- A bad escape is an error even of operands that are `NULL`.
            let escape <- settle (env.library.singleEscapeChar escape)
            settle (env.library.like negated value pattern (some escape))
  | .inList negated operand list collation affinity =>
    if list.isEmpty then pure (ofBool negated)
    else do
      let value <- evaluate operand
      if value.isNull then return .null
      else searchList negated value collation affinity false list
  | .between negated operand low high lowCollation highCollation lowAffinity highAffinity => do
      let value <- evaluate operand
      let low <- evaluate low
      let high <- evaluate high
      settle (env.library.between negated value low high lowCollation highCollation lowAffinity
        highAffinity)
  | .case operand branches elseResult branchCollations branchAffinities => do
      let operand <- evaluateOptional operand
      let chosen <- evaluateBranches operand branchCollations branchAffinities 0 branches
      match chosen with
      | some value => return value
      | none => do
          let value <- evaluateOptional elseResult
          return value.getD .null
  | .cast operand target => do
      let value <- evaluate operand
      settle (env.library.cast value target)
  | .collate operand _ => evaluate operand
  | .func func args collation =>
    match func with
    | .coalesce | .ifNull => firstNonNull args
    | .jsonSet => jsonPut .set args
    | .jsonInsert => jsonPut .insert args
    | .jsonReplace => jsonPut .replace args
    | .jsonArray => do
        let items <- composeAll args
        return .text (env.library.writeJson (.array items))
    | .jsonObject => do
        let members <- composeMembers args
        return .text (env.library.writeJson (.object members))
    | func => do
        let values <- evaluateAll args
        env.apply func collation values
  termination_by (sizeOf expr, 0)

/-- An expression that may be absent. -/
def evaluateOptional (expr : Option (Expr Plan)) : Evaluation World (Option Value) :=
  match expr with
  | none => pure none
  | some expr => do
      let value <- evaluate expr
      return some value
  termination_by (sizeOf expr, 0)

/-- Expressions in order. -/
def evaluateAll (exprs : List (Expr Plan)) : Evaluation World (List Value) :=
  match exprs with
  | [] => pure []
  | expr :: rest => do
      let value <- evaluate expr
      let values <- evaluateAll rest
      return value :: values
  termination_by (sizeOf exprs, 0)

/-- The candidates of `IN`, until one is equal. -/
def searchList (negated : Bool) (value : Value) (collation : Collation)
    (affinity : CompareAffinity) (sawNull : Bool) (list : List (Expr Plan)) :
    Evaluation World Value :=
  match list with
  | [] => pure (if sawNull then .null else ofBool negated)
  | candidate :: rest => do
      let candidate <- evaluate candidate
      if candidate.isNull then searchList negated value collation affinity true rest
      else do
        let equal <- settle (comparison env.library.host .eq value candidate collation affinity)
        if equal == .integer 1 then return ofBool !negated
        else searchList negated value collation affinity sawNull rest
  termination_by (sizeOf list, 0)

/-- The result of the first branch of `CASE` that is taken. -/
def evaluateBranches (operand : Option Value) (collations : List Collation)
    (affinities : List CompareAffinity) (nth : Nat) (branches : List (Expr Plan × Expr Plan)) :
    Evaluation World (Option Value) :=
  match branches with
  | [] => pure none
  | (condition, result) :: rest => do
      let condition <- evaluate condition
      let matched <- settle (env.library.branchMatches operand condition
        (Collation.atPosition collations nth) ((affinities[nth]?).getD .none))
      if matched then do
        let value <- evaluate result
        return some value
      else evaluateBranches operand collations affinities (nth + 1) rest
  termination_by (sizeOf branches, 0)

/-- `coalesce`: what comes after the first argument that is not `NULL` is not evaluated. -/
def firstNonNull (args : List (Expr Plan)) : Evaluation World Value :=
  match args with
  | [] => pure .null
  | arg :: rest => do
      let value <- evaluate arg
      if value.isNull then firstNonNull rest else return value
  termination_by (sizeOf args, 0)

/-- `json_composed_value`. -/
def composedValue (expr : Expr Plan) : Evaluation World Json :=
  match expr with
  | .func .jsonExtract [doc, path] _ => do
      let doc <- evaluate doc
      let doc <- settle (env.library.jsonDoc doc)
      match doc with
      | none => return .null
      | some doc => do
          let path <- evaluate path
          let path <- settle (env.library.jsonPathArg path)
          match path with
          | none => return .null
          | some path => return (env.library.getJson doc path).getD .null
  | expr => do
      let value <- evaluate expr
      settle (env.library.composeValue (isJsonProducing expr) value)
  termination_by (sizeOf expr, 1)

/-- The items of `json_array_fn`. -/
def composeAll (args : List (Expr Plan)) : Evaluation World (List Json) :=
  match args with
  | [] => pure []
  | arg :: rest => do
      let item <- composedValue arg
      let items <- composeAll rest
      return item :: items
  termination_by (sizeOf args, 0)

/-- The members of `json_object_fn`; an odd argument at the end is not looked at. -/
def composeMembers (args : List (Expr Plan)) : Evaluation World (List (String × Json)) :=
  match args with
  | key :: value :: rest => do
      let key <- evaluate key
      match key with
      | .text key => do
          let value <- composedValue value
          let members <- composeMembers rest
          return (key, value) :: members
      | _ => throw (.type "json_object() labels must be TEXT")
  | _ => pure []
  termination_by (sizeOf args, 0)

/-- `json_put_fn`. The planner checks that there is a first argument. -/
def jsonPut (mode : PutMode) (args : List (Expr Plan)) : Evaluation World Value :=
  match args with
  | [] => pure .null
  | doc :: pairs => do
      let doc <- evaluate doc
      let doc <- settle (env.library.jsonDoc doc)
      match doc with
      | none => return .null
      | some doc => do
          let doc <- putPairs mode doc pairs
          return .text (env.library.writeJson doc)
  termination_by (sizeOf args, 0)

/-- The pairs of `json_put_fn`: a `NULL` path skips its pair. -/
def putPairs (mode : PutMode) (doc : Json) (pairs : List (Expr Plan)) : Evaluation World Json :=
  match pairs with
  | path :: value :: rest => do
      let path <- evaluate path
      let path <- settle (env.library.jsonPathArg path)
      match path with
      | none => putPairs mode doc rest
      | some path => do
          let value <- composedValue value
          putPairs mode (env.library.putJson doc path value mode) rest
  | _ => pure doc
  termination_by (sizeOf pairs, 0)

end

end

end InlaySql.Eval
