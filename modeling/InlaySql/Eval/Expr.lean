import InlaySql.Eval.Cells

/-!
# The evaluator

A plan's scalar expressions and their evaluation over an owned row. Evaluation may fail,
and it reads and writes what a statement keeps: the results of its uncorrelated
subqueries, and whatever the functions draw from outside (the clock, the generator).
-/

namespace InlaySql.Eval

open Lib Sql

/-! ## Syntax -/

/-- A unary operator. -/
inductive UnaryOp where
  | neg
  | not
  | isNull
  | isNotNull
  deriving DecidableEq, Repr

/-- A scalar function. -/
inductive ScalarFunc where
  | length
  | upper
  | lower
  | substr
  | trim
  | lTrim
  | rTrim
  | replace
  | instr
  | abs
  | round
  | coalesce
  | ifNull
  | nullIf
  | min
  | max
  | hex
  | octetLength
  | unhex
  | random
  | date
  | time
  | dateTime
  | strftime
  | unixEpoch
  | currentTimestamp
  | currentDate
  | currentTime
  | mysqlSubstr
  | mysqlHex
  | mysqlNullIf
  | mysqlRound
  | json
  | jsonExtract
  | jsonValid
  | jsonType
  | jsonQuote
  | jsonArray
  | jsonObject
  | jsonArrayLength
  | jsonSet
  | jsonInsert
  | jsonReplace
  | jsonRemove
  deriving DecidableEq, Repr

/-- What the rows of a subquery are turned into. -/
inductive SubqueryOp (Probe : Type) where
  | scalar
  | exist (negated : Bool)
  | isIn (negated : Bool) (probe : Probe) (collation : Collation) (affinity : CompareAffinity)

/-- A subquery: its identity in the statement, its plan, and what the enclosing query
hands it. -/
structure Subquery (Plan Capture : Type) where
  id : Nat
  body : Plan
  captures : List Capture

/-- A scalar expression. -/
inductive Expr (Plan : Type) where
  | literal (value : Value)
  | param (index : Nat)
  | column (index : Nat)
  | outer (index : Nat)
  | unary (op : UnaryOp) (expr : Expr Plan)
  | binary (op : BinaryOp) (left right : Expr Plan) (collation : Collation)
      (affinity : CompareAffinity)
  | collate (expr : Expr Plan) (collation : Collation)
  | agg (index : Nat)
  | window (index : Nat)
  | like (negated : Bool) (expr pattern : Expr Plan) (escape : Option (Expr Plan))
  | inList (negated : Bool) (expr : Expr Plan) (list : List (Expr Plan)) (collation : Collation)
      (affinity : CompareAffinity)
  | between (negated : Bool) (expr low high : Expr Plan) (lowCollation highCollation : Collation)
      (lowAffinity highAffinity : CompareAffinity)
  | case (operand : Option (Expr Plan)) (branches : List (Expr Plan × Expr Plan))
      (elseResult : Option (Expr Plan)) (branchCollations : List Collation)
      (branchAffinities : List CompareAffinity)
  | cast (expr : Expr Plan) (target : CastType)
  | func (func : ScalarFunc) (args : List (Expr Plan)) (collation : Collation)
  | subquery (op : SubqueryOp (Expr Plan)) (query : Subquery Plan (Expr Plan))

/-! ## JSON -/

/-- A JSON value. -/
inductive Json where
  | null
  | bool (value : Bool)
  | int (value : Int)
  | real (value : F64) (text : String)
  | text (value : String)
  | array (items : List Json)
  | object (members : List (String × Json))

/-- A bracketed step of a JSON path: an index, the append position, or counted back from it. -/
inductive IndexSpec where
  | exact (index : Nat)
  | append
  | fromEnd (count : Nat)

/-- A step of a JSON path. -/
inductive JsonStep where
  | key (name : String)
  | index (spec : IndexSpec)

/-- How `put` treats what exists. -/
inductive PutMode where
  | set
  | insert
  | replace

/-! ## The environment -/

/-- The operations on values that do not evaluate anything. -/
structure Library where
  host : Host
  /-- `arithmetic`: the rounding of a double is the machine's. -/
  arithmetic : BinaryOp -> Value -> Value -> Except Error Value
  /-- `cast`. -/
  cast : Value -> CastType -> Except Error Value
  /-- `like_matches`: the pattern, the text and the escape. -/
  likeMatches : String -> String -> Option Char -> Bool
  /-- `json::parse`. -/
  parseJson : String -> Option Json
  /-- `json::parse_path`. -/
  parsePath : String -> Option (List JsonStep)
  /-- `json::write`. -/
  writeJson : Json -> String
  /-- `json::get`. -/
  getJson : Json -> List JsonStep -> Option Json
  /-- `json::put`. -/
  putJson : Json -> List JsonStep -> Json -> PutMode -> Json

/-- What a statement keeps while it runs: its subquery results by id, and the world its
functions read. -/
structure Statement (World : Type) where
  memo : Nat -> Option (List Row)
  world : World

/-- A computation that may fail; what it did to the statement stays. -/
abbrev Evaluation (World : Type) := ExceptT Error (StateM (Statement World))

/-- The environment of a statement. -/
structure Env (Plan World : Type) where
  library : Library
  params : List Value
  outer : List Value
  /-- The functions that take evaluated arguments. -/
  apply : ScalarFunc -> Collation -> List Value -> Evaluation World Value
  /-- Who runs a subquery, given its plan, its captured values and a bound on its rows. -/
  runner : Option (Plan -> List Value -> Option Nat -> Evaluation World (List Row))

/-- The values computed by the enclosing group and window stages. -/
structure Computed where
  aggregates : List Value
  windows : List Value

/-- `Computed::NONE`. -/
def Computed.none : Computed := ⟨[], []⟩

/-- A pure result as a computation. -/
def settle {World α : Type} (result : Except Error α) : Evaluation World α := liftExcept result

/-- `i64::from(bool)` as a value. -/
def ofBool (truth : Bool) : Value := .integer (if truth then 1 else 0)

/-! ## Leaves -/

section Leaves

variable {Plan World : Type}

/-- The bound parameter at an index. -/
def Env.param (env : Env Plan World) (index : Nat) : Except Error Value :=
  match env.params[index]? with
  | some value => .ok value
  | none => .error (.bind (s!"statement needs a parameter at position {index + 1}, but only " ++
      s!"{env.params.length} were bound"))

def missingColumn (index width : Nat) : Error :=
  .corrupt s!"expression references column {index}, but the row has {width} value(s)"

/-- The column at an index of an owned row. -/
def readColumn (row : Row) (index : Nat) : Except Error Value :=
  match row[index]? with
  | some value => .ok value
  | none => .error (missingColumn index row.length)

/-- The captured value at an index. -/
def Env.captured (env : Env Plan World) (index : Nat) : Except Error Value :=
  match env.outer[index]? with
  | some value => .ok value
  | none => .error (.corrupt (s!"a subquery reads outer value {index}, but only " ++
      s!"{env.outer.length} were captured"))

/-- The aggregate at an index. -/
def Computed.aggregate (computed : Computed) (index : Nat) : Except Error Value :=
  match computed.aggregates[index]? with
  | some value => .ok value
  | .none => .error (.corrupt (s!"expression references aggregate {index}, but only " ++
      s!"{computed.aggregates.length} were computed"))

/-- The window value at an index. -/
def Computed.window (computed : Computed) (index : Nat) : Except Error Value :=
  match computed.windows[index]? with
  | some value => .ok value
  | .none => .error (.corrupt (s!"expression references window function {index}, but only " ++
      s!"{computed.windows.length} were computed"))

end Leaves

namespace Library

variable (library : Library)

def truth (value : Value) : Option Bool := library.host.numerals.truth value

def isTruthy (value : Value) : Bool := library.host.numerals.isTruthy value

/-- `negate`: the one integer without a negative becomes a real. -/
def negate : Value -> Except Error Value
  | .null => .ok .null
  | .integer value =>
    if value = -2 ^ 63 then .ok (.real ⟨(F64.ofInt value).bits ^^^ F64.signBit⟩)
    else .ok (.integer (-value))
  | .real value => .ok (.real ⟨value.bits ^^^ F64.signBit⟩)
  | other => .error (.type s!"cannot negate a {other.typeName} value")

def asText : Value -> Except Error String
  | .null => .error (.type "NULL has no text form; it propagates instead")
  | .integer value => .ok (toString value)
  | .real value => .ok (library.host.realToText value)
  | .text text => .ok text
  | .blob bytes => .ok (library.host.fromUtf8Lossy bytes)
  | .vector _ => .error (.type "a VECTOR value has no text form")

/-- `MAX_LENGTH`. -/
def maxLength : Nat := 1000000000

def checkLength (length : Nat) (what : String) : Except Error Unit :=
  if maxLength < length then
    .error (.tooBig s!"{what} would produce {length} bytes, over the {maxLength}-byte limit")
  else .ok ()

def concat (left right : Value) : Except Error Value :=
  if left.isNull || right.isNull then .ok .null
  else do
    let left <- library.asText left
    let right <- library.asText right
    checkLength (left.utf8ByteSize + right.utf8ByteSize) "||"
    return .text (left ++ right)

def singleEscapeChar (value : Value) : Except Error Char := do
  let text <- library.asText value
  match text.toList with
  | [escape] => return escape
  | _ => throw (.type "ESCAPE expression must be a single character")

def jsonDoc (value : Value) : Except Error (Option Json) :=
  match value with
  | .null => .ok none
  | .vector _ => .error (.type "a VECTOR value is not JSON")
  | value => do
      let text <- library.asText value
      match library.parseJson text with
      | some doc => return some doc
      | none => throw (.type "malformed JSON")

def jsonPathArg (value : Value) : Except Error (Option (List JsonStep)) :=
  match value with
  | .null => .ok none
  | value => do
      let text <- library.asText value
      match library.parsePath text with
      | some path => return some path
      | none => throw (.type s!"bad JSON path: '{text}'")

def jsonLeaf : Value -> Except Error Json
  | .null => .ok .null
  | .integer value => .ok (.int value)
  | .real value => .ok (.real value (library.host.realToText value))
  | .text text => .ok (.text text)
  | .blob _ => .error (.type "JSON cannot hold BLOB values")
  | .vector _ => .error (.type "JSON cannot hold VECTOR values")

def jsonToValue (node : Json) : Value :=
  match node with
  | .null => .null
  | .bool truth => ofBool truth
  | .int value => .integer value
  | .real value _ => .real value
  | .text text => .text text
  | node => .text (library.writeJson node)

def jsonArrow (op : BinaryOp) (left right : Value) : Except Error Value := do
  match <- library.jsonDoc left with
  | none => return .null
  | some doc =>
    match <- library.jsonPathArg right with
    | none => return .null
    | some path =>
      match library.getJson doc path, op with
      | none, _ => return .null
      | some node, .jsonExtractJson => return .text (library.writeJson node)
      | some node, _ => return library.jsonToValue node

/-- The node an evaluated argument contributes to a composed document. -/
def composeValue (producing : Bool) (value : Value) : Except Error Json :=
  match producing, value with
  | true, .null => .ok .null
  | true, .text text =>
    match library.parseJson text with
    | some node => .ok node
    | none => .error (.type "malformed JSON")
  | _, value => library.jsonLeaf value

/-- `LIKE`, of evaluated operands. -/
def like (negated : Bool) (value pattern : Value) (escape : Option Char) : Except Error Value :=
  if value.isNull || pattern.isNull then .ok .null
  else do
    let pattern <- library.asText pattern
    let value <- library.asText value
    return ofBool (library.likeMatches pattern value escape != negated)

/-- The binary operators, of evaluated operands. -/
def operate (op : BinaryOp) (left right : Value) (collation : Collation)
    (affinity : CompareAffinity) : Except Error Value :=
  match op with
  | .add | .sub | .mul | .div | .mod => library.arithmetic op left right
  | .eq | .notEq | .lt | .ltEq | .gt | .gtEq =>
    comparison library.host op left right collation affinity
  | .and => .ok (library.host.numerals.logicalAnd left right)
  | .or => .ok (library.host.numerals.logicalOr left right)
  | .concat => library.concat left right
  | .jsonExtractJson | .jsonExtractText => library.jsonArrow op left right

/-- The unary operators, of an evaluated operand. -/
def operateUnary (op : UnaryOp) (value : Value) : Except Error Value :=
  match op with
  | .neg => negate value
  | .not => .ok (library.host.numerals.logicalNot value)
  | .isNull => .ok (ofBool value.isNull)
  | .isNotNull => .ok (ofBool !value.isNull)

/-- `BETWEEN`, of evaluated operands. -/
def between (negated : Bool) (value low high : Value) (lowCollation highCollation : Collation)
    (lowAffinity highAffinity : CompareAffinity) : Except Error Value := do
  let lower <- comparison library.host .gtEq value low lowCollation lowAffinity
  let upper <- comparison library.host .ltEq value high highCollation highAffinity
  let within := library.host.numerals.logicalAnd lower upper
  return if negated then library.host.numerals.logicalNot within else within

/-- Whether a branch of `CASE` is taken: the operand equals the condition, or the
condition is true. -/
def branchMatches (operand : Option Value) (condition : Value) (collation : Collation)
    (affinity : CompareAffinity) : Except Error Bool :=
  match operand with
  | some operand => do
      let equal <- comparison library.host .eq operand condition collation affinity
      return equal == .integer 1
  | none => .ok (library.isTruthy condition)

/-- The rows of an `IN` subquery, searched for a value. -/
def searchRows (negated : Bool) (value : Value) (collation : Collation)
    (affinity : CompareAffinity) (sawNull : Bool) : List Row -> Except Error Value
  | [] => .ok (if sawNull then .null else ofBool negated)
  | candidate :: rest =>
    match candidate.head? with
    | none => .ok .null
    | some candidate =>
      if candidate.isNull then searchRows negated value collation affinity true rest
      else do
        let equal <- comparison library.host .eq value candidate collation affinity
        if equal == .integer 1 then return ofBool !negated
        else searchRows negated value collation affinity sawNull rest

end Library

def isJsonProducing {Plan : Type} : Expr Plan -> Bool
  | .func func _ _ =>
    match func with
    | .json | .jsonExtract | .jsonArray | .jsonObject | .jsonSet | .jsonInsert
    | .jsonReplace | .jsonRemove => true
    | _ => false
  | .binary .jsonExtractJson _ _ _ _ => true
  | _ => false

end InlaySql.Eval
