import InlaySql.Eval.Numbers

/-!
# Comparable cells

A comparison reads its operands through six accessors, so that one body serves an owned
value, a value borrowed from a row, and an operand that is either. Whatever the
representation, the answer is that of the owned values.
-/

namespace InlaySql.Eval

open Lib Sql

/-- A value borrowed from the bytes of a row. -/
inductive ValueRef where
  | null
  | integer (value : Int)
  | real (value : F64)
  | text (value : String)
  | blob (value : Bytes)
  | vector (lanes : List UInt32)
  deriving DecidableEq, Repr

namespace ValueRef

def typeName : ValueRef -> String
  | .null => "NULL"
  | .integer _ => "INTEGER"
  | .real _ => "REAL"
  | .text _ => "TEXT"
  | .blob _ => "BLOB"
  | .vector _ => "VECTOR"

def isNull : ValueRef -> Bool
  | .null => true
  | _ => false

def asStr : ValueRef -> Option String
  | .text characters => some characters
  | _ => none

def asBlob : ValueRef -> Option Bytes
  | .blob bytes => some bytes
  | _ => none

/-- `as_f64`: integers widened. -/
def asF64 : ValueRef -> Option F64
  | .integer value => some (F64.ofInt value)
  | .real value => some value
  | _ => none

def asI64 : ValueRef -> Option Int
  | .integer value => some value
  | _ => none

def toOwnedValue : ValueRef -> Value
  | .null => .null
  | .integer value => .integer value
  | .real value => .real value
  | .text characters => .text characters
  | .blob bytes => .blob bytes
  | .vector lanes => .vector lanes

/-- `ValueRef::from`. -/
def ofValue : Value -> ValueRef
  | .null => .null
  | .integer value => .integer value
  | .real value => .real value
  | .text characters => .text characters
  | .blob bytes => .blob bytes
  | .vector lanes => .vector lanes

@[simp] theorem toOwnedValue_ofValue (value : Value) : (ofValue value).toOwnedValue = value := by
  cases value <;> rfl

end ValueRef

/-- Either half of a comparison still being decided: borrowed from the row, or owned. -/
inductive Operand where
  | ref (value : ValueRef)
  | owned (value : Value)

/-- A comparable cell. -/
class Cell (α : Type) where
  isNullCell : α -> Bool
  asTextCell : α -> Option String
  asBlobCell : α -> Option Bytes
  asF64Cell : α -> Option F64
  asI64Cell : α -> Option Int
  typeNameCell : α -> String

export Cell (isNullCell asTextCell asBlobCell asF64Cell asI64Cell typeNameCell)

instance : Cell Value where
  isNullCell value := value.isNull
  asTextCell
    | .text text => some text
    | _ => none
  asBlobCell
    | .blob bytes => some bytes
    | _ => none
  asF64Cell value := value.asF64
  asI64Cell
    | .integer value => some value
    | _ => none
  typeNameCell value := value.typeName

instance : Cell ValueRef where
  isNullCell value := value.isNull
  asTextCell value := value.asStr
  asBlobCell value := value.asBlob
  asF64Cell value := value.asF64
  asI64Cell value := value.asI64
  typeNameCell value := value.typeName

instance : Cell Operand where
  isNullCell
    | .ref value => isNullCell value
    | .owned value => isNullCell value
  asTextCell
    | .ref value => asTextCell value
    | .owned value => asTextCell value
  asBlobCell
    | .ref value => asBlobCell value
    | .owned value => asBlobCell value
  asF64Cell
    | .ref value => asF64Cell value
    | .owned value => asF64Cell value
  asI64Cell
    | .ref value => asI64Cell value
    | .owned value => asI64Cell value
  typeNameCell
    | .ref value => typeNameCell value
    | .owned value => typeNameCell value

/-- `&dyn Cell`: a cell of which only the accessors are known. -/
structure DynCell where
  isNull : Bool
  asText : Option String
  asBlob : Option Bytes
  asF64 : Option F64
  asI64 : Option Int
  typeName : String

instance : Cell DynCell where
  isNullCell := DynCell.isNull
  asTextCell := DynCell.asText
  asBlobCell := DynCell.asBlob
  asF64Cell := DynCell.asF64
  asI64Cell := DynCell.asI64
  typeNameCell := DynCell.typeName

/-- A cell seen through its accessors. -/
def toDyn {α : Type} [Cell α] (cell : α) : DynCell where
  isNull := isNullCell cell
  asText := asTextCell cell
  asBlob := asBlobCell cell
  asF64 := asF64Cell cell
  asI64 := asI64Cell cell
  typeName := typeNameCell cell

/-! ## The comparison -/

section Comparison

variable {α β : Type} [Cell α] [Cell β]

/-- The class of `class_compare`: numbers, text, blobs, and none of a vector. -/
def cellClass (cell : α) : Option Nat :=
  if (asF64Cell cell).isSome then some 1
  else if (asTextCell cell).isSome then some 2
  else if (asBlobCell cell).isSome then some 3
  else none

/-- Two cells of one class. -/
def compareInClass (left : α) (right : β) (collation : Collation) : Ordering :=
  match asTextCell left, asTextCell right with
  | some left, some right => collation.compare left right
  | _, _ =>
    match asBlobCell left, asBlobCell right with
    | some left, some right => List.compareLex compare left right
    | _, _ =>
      match asI64Cell left, asI64Cell right with
      | some left, some right => compare left right
      | _, _ =>
        match asF64Cell left, asF64Cell right with
        | some left, some right => (left.partialCmp right).getD .eq
        -- Equal storage classes compare within the class.
        | _, _ => .eq

def classCompare (left : α) (right : β) (collation : Collation) : Except Error Ordering :=
  match cellClass left, cellClass right with
  | some leftClass, some rightClass =>
    match compare leftClass rightClass with
    | .eq => .ok (compareInClass left right collation)
    | decided => .ok decided
  | _, _ => .error (.type s!"cannot compare {typeNameCell left} and {typeNameCell right}")

def affinityConversion (host : Host) (cell : α) (affinity : CompareAffinity) : Option Value :=
  match affinity with
  | .none => none
  | .numeric => (asTextCell cell).bind host.numericAffinityOfText
  | .text =>
    if (asTextCell cell).isSome || (asBlobCell cell).isSome then none
    else
      match asI64Cell cell with
      | some integer => some (.text (toString integer))
      | none => (asF64Cell cell).map fun real => .text (host.realToText real)

/-- What a cell is compared as: its conversion, or itself. -/
def converted (host : Host) (cell : α) (affinity : CompareAffinity) : DynCell :=
  match affinityConversion host cell affinity with
  | some value => toDyn value
  | none => toDyn cell

def compareCells (host : Host) (op : BinaryOp) (left : α) (right : β) (collation : Collation)
    (affinity : CompareAffinity) : Except Error Value :=
  if isNullCell left || isNullCell right then .ok .null
  else do
    let ordering <- classCompare (converted host left affinity) (converted host right affinity)
      collation
    return .integer (if verdict op ordering then 1 else 0)

end Comparison

/-- `comparison`, of owned values. -/
def comparison (host : Host) (op : BinaryOp) (left right : Value) (collation : Collation)
    (affinity : CompareAffinity) : Except Error Value :=
  compareCells host op left right collation affinity

/-! ## Cells of one value -/

/-- The cell reads as `value` does. -/
def Reads {α : Type} [Cell α] (cell : α) (value : Value) : Prop := toDyn cell = toDyn value

theorem Reads.refl (value : Value) : Reads value value := rfl

theorem ValueRef.reads (cell : ValueRef) : Reads cell cell.toOwnedValue := by
  cases cell <;> rfl

namespace Operand

/-- The operand as a value. -/
def value : Operand -> Value
  | .ref cell => cell.toOwnedValue
  | .owned value => value

theorem reads (operand : Operand) : Reads operand operand.value := by
  cases operand with
  | ref cell => exact cell.reads
  | owned value => rfl

end Operand

section Reading

variable {α β : Type} [Cell α] [Cell β] {left : α} {right : β} {low high : Value}

theorem Reads.isNullCell (reads : Reads left low) : isNullCell left = low.isNull :=
  congrArg DynCell.isNull reads

theorem Reads.affinityConversion (reads : Reads left low) (host : Host)
    (affinity : CompareAffinity) :
    affinityConversion host left affinity = affinityConversion host low affinity :=
  congrArg (fun cell : DynCell => Eval.affinityConversion host cell affinity) reads

theorem Reads.classCompare (leftReads : Reads left low) (rightReads : Reads right high)
    (collation : Collation) : classCompare left right collation = classCompare low high collation :=
  congrArg₂ (fun first second : DynCell => Eval.classCompare first second collation)
    leftReads rightReads

theorem Reads.converted (reads : Reads left low) (host : Host) (affinity : CompareAffinity) :
    converted host left affinity = converted host low affinity := by
  unfold Eval.converted
  rw [reads.affinityConversion host affinity, show toDyn left = toDyn low from reads]

theorem Reads.compareCells (leftReads : Reads left low) (rightReads : Reads right high)
    (host : Host) (op : BinaryOp) (collation : Collation) (affinity : CompareAffinity) :
    compareCells host op left right collation affinity =
      comparison host op low high collation affinity := by
  unfold comparison Eval.compareCells
  rw [leftReads.isNullCell, rightReads.isNullCell, leftReads.converted host affinity,
    rightReads.converted host affinity]
  rfl

end Reading

/-! ## Owned values -/

theorem affinityConversion_value (host : Host) (value : Value) (affinity : CompareAffinity) :
    affinityConversion host value affinity = host.numerals.affinityConversion value affinity := by
  cases affinity <;> cases value <;> rfl

theorem classCompare_value (left right : Value) (collation : Collation) :
    classCompare left right collation = Sql.classCompare left right collation := by
  cases left <;> cases right <;> rfl

/-- What a value is compared as, as a value. -/
def compared (host : Host) (value : Value) (affinity : CompareAffinity) : Value :=
  (affinityConversion host value affinity).getD value

section

variable (host : Host) (value : Value) (affinity : CompareAffinity)

include host value affinity

theorem converted_value : converted host value affinity = toDyn (compared host value affinity) := by
  unfold converted compared
  cases affinityConversion host value affinity <;> rfl

theorem compared_isNull : (compared host value affinity).isNull = value.isNull := by
  unfold compared
  cases conversion : affinityConversion host value affinity with
  | none => rfl
  | some other =>
    rw [affinityConversion_value] at conversion
    have notNull : value.isNull = false := by
      cases value with
      | null => cases affinity <;> cases conversion
      | integer | real | text | blob | vector => rfl
    rw [notNull]
    exact host.affinityConversion_isNull conversion

end

end InlaySql.Eval
