import InlaySql.Eval.Cells
import InlaySql.Sql.CatalogRoundTrip

/-!
# The bytes of a row

A row is a count and, for each value, a tag and a payload whose length the tag tells or a
length before it does. There is no directory of columns: a reader that wants some of them
walks over the others. What a skipped text holds is not looked at. The product of a
quantised code and its scale is a parameter.
-/

namespace InlaySql.Sql.RowCodec

open Lib Sql
open Cursor (take u8 u32 count many)
open Eval (ValueRef)

def tagNull : UInt8 := 0
def tagInteger : UInt8 := 1
def tagReal : UInt8 := 2
def tagText : UInt8 := 3
def tagBlob : UInt8 := 4
def tagVector : UInt8 := 5
def tagVectorQ8 : UInt8 := 6

/-! ## Writing -/

/-- `i64::to_le_bytes`. -/
def putI64 (value : Int) : Bytes := leBytes 8 (value % 2 ^ 64).toNat

/-- `i64::from_le_bytes`. -/
def readI64 (bytes : Bytes) : Int :=
  let unsigned := ofLe bytes
  if unsigned < 2 ^ 63 then unsigned else (unsigned : Int) - 2 ^ 64

/-- `encode_value`. A length is cut to a `u32`. -/
def encodeValue : Value -> Bytes
  | .null => [tagNull]
  | .integer value => tagInteger :: putI64 value
  | .real value => tagReal :: leBytes 8 value.bits.toNat
  | .text value => tagText :: (leBytes 4 (utf8 value).length ++ utf8 value)
  | .blob value => tagBlob :: (leBytes 4 value.length ++ value)
  | .vector lanes => tagVector :: (leBytes 4 lanes.length ++ lanes.flatMap fun lane =>
    leBytes 4 lane.toNat)

def encodeRow (values : Row) : Bytes := leBytes 4 values.length ++ values.flatMap encodeValue

/-! ## Masks -/

def inlineColumns : Nat := 128

/-- `ColumnMask`: a word for the first columns and a list for those past it. -/
structure ColumnMask where
  everything : Bool
  width : Nat
  inline : Nat
  spilled : List Bool
  spills : spilled.length = width - inlineColumns

namespace ColumnMask

/-- `ColumnMask::ALL`. -/
def all : ColumnMask := ⟨true, 0, 0, [], rfl⟩

def wants (self : ColumnMask) (ordinal : Nat) : Bool :=
  if self.everything || self.width ≤ ordinal then true
  else if inlineColumns ≤ ordinal then self.spilled.getD (ordinal - inlineColumns) false
  else self.inline.testBit ordinal

/-- `rposition`. -/
def lastWanted : List Bool -> Option Nat
  | [] => Option.none
  | wanted :: rest =>
    match lastWanted rest with
    | some last => some (last + 1)
    | Option.none => if wanted then some 0 else Option.none

/-- `walk_len`: the bit length of the word is the width of a `u128` less its leading zeros. -/
def walkLen (self : ColumnMask) (count : Nat) : Nat :=
  if self.everything || self.width < count then count
  else
    match lastWanted self.spilled with
    | some last => min (inlineColumns + last + 1) count
    | Option.none => min self.inline.size count

end ColumnMask

/-! ## Reading -/

section Reading

-- `code as f32 * scale`, the code and the scale as bits.
variable (dequantize : UInt8 -> UInt32 -> UInt32)

/-- `Q8Vector::to_f32`. -/
def toF32 (scale : UInt32) (codes : Bytes) : List UInt32 := codes.map (dequantize · scale)

/-- A lane of an exact vector. -/
def lane : Reader Error UInt32 := do return UInt32.ofNat (ofLe (<- take .corrupt 4))

def decodeValue : Reader Error Value := do
  let tag <- u8 .corrupt
  if tag = tagNull then return .null
  else if tag = tagInteger then return .integer (readI64 (<- take .corrupt 8))
  else if tag = tagReal then return .real ⟨UInt64.ofNat (ofLe (<- take .corrupt 8))⟩
  else if tag = tagText then
    let length <- u32 .corrupt
    let bytes <- take .corrupt length
    match fromUtf8 bytes with
    | some text => return .text text
    | none => Cursor.refuse "text column is not valid UTF-8"
  else if tag = tagBlob then
    let length <- u32 .corrupt
    return .blob (<- take .corrupt length)
  else if tag = tagVector then
    let dim <- count .corrupt 4
    return .vector (<- many lane dim)
  else if tag = tagVectorQ8 then
    let dim <- count .corrupt 1
    let scale <- lane
    return .vector (toF32 dequantize scale (<- take .corrupt dim))
  else Cursor.refuse s!"unknown value tag {tag}"

def decodeValueRef : Reader Error ValueRef := do
  let tag <- u8 .corrupt
  if tag = tagNull then return .null
  else if tag = tagInteger then return .integer (readI64 (<- take .corrupt 8))
  else if tag = tagReal then return .real ⟨UInt64.ofNat (ofLe (<- take .corrupt 8))⟩
  else if tag = tagText then
    let length <- u32 .corrupt
    let bytes <- take .corrupt length
    match fromUtf8 bytes with
    | some text => return .text text
    | none => Cursor.refuse "text column is not valid UTF-8"
  else if tag = tagBlob then
    let length <- u32 .corrupt
    return .blob (<- take .corrupt length)
  else if tag = tagVector then
    let dim <- count .corrupt 4
    return .vector (<- many lane dim)
  else if tag = tagVectorQ8 then
    let dim <- count .corrupt 1
    let scale <- lane
    return .vector (toF32 dequantize scale (<- take .corrupt dim))
  else Cursor.refuse s!"unknown value tag {tag}"

/-- The length of a payload, by its tag. -/
def payloadLen (tag : UInt8) : Reader Error Nat :=
  if tag = tagNull then return 0
  else if tag = tagInteger ∨ tag = tagReal then return 8
  else if tag = tagText ∨ tag = tagBlob then u32 .corrupt
  else if tag = tagVector then do return (<- count .corrupt 4) * 4
  else if tag = tagVectorQ8 then do return (<- count .corrupt 1) + 4
  else Cursor.refuse s!"unknown value tag {tag}"

def skipValue : Reader Error Unit := do
  let tag <- u8 .corrupt
  let length <- payloadLen tag
  let _ <- take .corrupt length
  return ()

/-- How a decoder that fills a buffer ends, and what the buffer holds then. -/
abbrev Filled (α : Type) := Except (Fault Error) Unit × List α

/-- The columns from `ordinal` on, so many of them, onto a buffer. -/
def fill {α : Type} (decode : Reader Error α) (null : α) (wants : Nat -> Bool) :
    Nat -> Nat -> List α -> Cursor -> Filled α
  | 0, _, out, _ => (.ok (), out)
  | left + 1, ordinal, out, cursor =>
    if wants ordinal then
      match decode cursor with
      | (.ok value, next) => fill decode null wants left (ordinal + 1) (out ++ [value]) next
      | (.error fault, _) => (.error fault, out)
    else
      match skipValue cursor with
      | (.ok _, next) => fill decode null wants left (ordinal + 1) (out ++ [null]) next
      | (.error fault, _) => (.error fault, out)

/-- The count of a row and the columns after it, onto a buffer. -/
def fillRow {α : Type} (decode : Reader Error α) (null : α) (mask : ColumnMask) (bytes : Bytes)
    (out : List α) : Filled α :=
  match count .corrupt 1 (Cursor.new bytes) with
  | (.ok count, cursor) => fill decode null mask.wants count 0 out cursor
  | (.error fault, _) => (.error fault, out)

/-- What a decoder with a fresh buffer returns. -/
def Filled.returned {α : Type} (self : Filled α) : Except (Fault Error) (List α) :=
  self.1.map fun _ => self.2

def decodeRowMaskedOnto (bytes : Bytes) (mask : ColumnMask) (out : List Value) : Filled Value :=
  fillRow (decodeValue dequantize) .null mask bytes out

def decodeRowMasked (bytes : Bytes) (mask : ColumnMask) : Except (Fault Error) (List Value) :=
  (decodeRowMaskedOnto dequantize bytes mask []).returned

def decodeRow (bytes : Bytes) : Except (Fault Error) Row := decodeRowMasked dequantize bytes .all

def decodeRowRefMaskedOnto (bytes : Bytes) (mask : ColumnMask) (out : List ValueRef) :
    Filled ValueRef :=
  fillRow (decodeValueRef dequantize) .null mask bytes out

/-- `decode_row_ref_masked_into`: what the buffer held is cleared. -/
def decodeRowRefMaskedInto (bytes : Bytes) (mask : ColumnMask) (_out : List ValueRef) :
    Filled ValueRef :=
  decodeRowRefMaskedOnto dequantize bytes mask []

def decodeRowRefMasked (bytes : Bytes) (mask : ColumnMask) :
    Except (Fault Error) (List ValueRef) :=
  (decodeRowRefMaskedInto dequantize bytes mask []).returned

/-- `decode_row_ref_wanted_into`: the columns past the last wanted one are not walked. -/
def decodeRowRefWantedInto (bytes : Bytes) (mask : ColumnMask) (_out : List ValueRef) :
    Filled ValueRef :=
  match count .corrupt 1 (Cursor.new bytes) with
  | (.ok count, cursor) =>
    let walk := mask.walkLen count
    match fill (decodeValueRef dequantize) .null mask.wants walk 0 [] cursor with
    | (.ok _, out) => (.ok (), out ++ List.replicate (count - walk) .null)
    | (.error fault, out) => (.error fault, out)
  | (.error fault, _) => (.error fault, [])

/-- `skip_value`, so many times. -/
def skipValues : Nat -> Reader Error Unit
  | 0 => pure ()
  | left + 1 => do
      skipValue
      skipValues left

/-- `decode_value_at`, on a cursor at the front of the row. -/
def readValueAt (ordinal : Nat) : Reader Error Value := do
  let count <- count .corrupt 1
  if count ≤ ordinal then Cursor.refuse "column ordinal past the end of the row"
  else do
    skipValues ordinal
    decodeValue dequantize

def decodeValueAt (bytes : Bytes) (ordinal : Nat) : Except (Fault Error) Value :=
  (readValueAt dequantize ordinal (Cursor.new bytes)).1

end Reading

end InlaySql.Sql.RowCodec
