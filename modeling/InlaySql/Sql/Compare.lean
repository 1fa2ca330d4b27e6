import InlaySql.Lib.Lexical
import InlaySql.Sql.Catalog

/-!
# Comparing values

A comparison converts its operands under the affinity the planner resolved and then
ranks them: numbers below text below blobs, two integers exactly, an integer and a
real as doubles, texts under a collation. The encoding of an index key follows that
order, and maps to one key only values a double cannot tell apart.
-/

namespace InlaySql.Sql

open Lib

/-! ## Doubles in order -/

namespace F64

/-- The magnitude with its sign, in which the order of doubles is that of integers. -/
def signed (value : F64) : Int :=
  if value.bits &&& signBit ≠ 0 then -(value.magnitude.toNat : Int) else value.magnitude.toNat

/-- `partial_cmp`: a `NaN` is not comparable. -/
def partialCmp (left right : F64) : Option Ordering :=
  if left.isNan || right.isNan then none else some (compare left.signed right.signed)

end F64

/-! ## Comparison -/

/-- The affinity a declared type or a `CAST` names. -/
inductive CastType where
  | integer
  | real
  | text
  | blob
  | numeric
  deriving DecidableEq, Repr

/-- What a comparison converts before it compares. -/
inductive CompareAffinity where
  | none
  | numeric
  | text
  deriving DecidableEq, Repr

/-- A binary operator. -/
inductive BinaryOp where
  | add
  | sub
  | mul
  | div
  | mod
  | eq
  | notEq
  | lt
  | ltEq
  | gt
  | gtEq
  | and
  | or
  | concat
  | jsonExtractJson
  | jsonExtractText
  deriving DecidableEq, Repr

/-- How numbers are read from and written as text. -/
structure Numerals where
  numericAffinityOfText : String -> Option Value
  realToText : F64 -> String
  textToReal : String -> F64
  fromUtf8Lossy : Bytes -> String

namespace Value

def typeName : Value -> String
  | .null => "NULL"
  | .integer _ => "INTEGER"
  | .real _ => "REAL"
  | .text _ => "TEXT"
  | .blob _ => "BLOB"
  | .vector _ => "VECTOR"

/-- The storage class: numbers, text, blobs. -/
def storageClass : Value -> Option Nat
  | .integer _ | .real _ => some 1
  | .text _ => some 2
  | .blob _ => some 3
  | .null | .vector _ => none

end Value

/-- The integers of the source are 64-bit. -/
def Value.Fits : Value -> Prop
  | .integer value => -2 ^ 63 ≤ value ∧ value < 2 ^ 63
  | _ => True

/-- `class_compare`: stage two of a comparison. A `NaN` compares as equal. -/
def classCompare (left right : Value) (collation : Collation) : Except Error Ordering :=
  match left.storageClass, right.storageClass with
  | some leftClass, some rightClass =>
    match compare leftClass rightClass with
    | .eq =>
      match left, right with
      | .text left, .text right => .ok (collation.compare left right)
      | .blob left, .blob right => .ok (List.compareLex compare left right)
      | .integer left, .integer right => .ok (compare left right)
      | left, right =>
        match left.asF64, right.asF64 with
        | some left, some right => .ok ((left.partialCmp right).getD .eq)
        | _, _ => .ok .eq
    | decided => .ok decided
  | _, _ => .error (.type s!"cannot compare {left.typeName} and {right.typeName}")

/-- `verdict`: what a comparison operator says about an ordering. -/
def verdict (op : BinaryOp) (ordering : Ordering) : Bool :=
  match op with
  | .eq => ordering == .eq
  | .notEq => ordering != .eq
  | .lt => ordering == .lt
  | .ltEq => ordering != .gt
  | .gt => ordering == .gt
  | .gtEq => ordering != .lt
  | _ => false

namespace Numerals

variable (numerals : Numerals)

/-- `affinity_conversion`: what a value becomes, if anything changes. -/
def affinityConversion (value : Value) : CompareAffinity -> Option Value
  | .none => none
  | .numeric =>
    match value with
    | .text text => numerals.numericAffinityOfText text
    | _ => none
  | .text =>
    match value with
    | .integer integer => some (.text (toString integer))
    | .real real => some (.text (numerals.realToText real))
    | _ => none

def compareCells (op : BinaryOp) (left right : Value) (collation : Collation)
    (affinity : CompareAffinity) : Except Error Value :=
  if left.isNull || right.isNull then .ok .null
  else do
    let left := (numerals.affinityConversion left affinity).getD left
    let right := (numerals.affinityConversion right affinity).getD right
    let ordering <- classCompare left right collation
    return .integer (if verdict op ordering then 1 else 0)

/-- `truth`, three-valued. -/
def truth : Value -> Option Bool
  | .null => none
  | .integer value => some (value != 0)
  | .real value => some !value.isZero
  | .text text => some !(numerals.textToReal text).isZero
  | .blob bytes => some !(numerals.textToReal (numerals.fromUtf8Lossy bytes)).isZero
  | .vector _ => some true

def isTruthy (value : Value) : Bool := numerals.truth value == some true

def logicalAnd (left right : Value) : Value :=
  match numerals.truth left, numerals.truth right with
  | some false, _ | _, some false => .integer 0
  | some true, some true => .integer 1
  | _, _ => .null

def logicalOr (left right : Value) : Value :=
  match numerals.truth left, numerals.truth right with
  | some true, _ | _, some true => .integer 1
  | some false, some false => .integer 0
  | _, _ => .null

def logicalNot (value : Value) : Value :=
  match numerals.truth value with
  | some truth => .integer (if truth then 0 else 1)
  | none => .null

end Numerals

end InlaySql.Sql
