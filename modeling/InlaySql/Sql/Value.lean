import InlaySql.Lib.Bytes

/-!
# Values, collations and index keys

The values a row holds, with a double kept as its bits, the three collating
sequences, and the key a row contributes to a scalar index: the index prefix, the
memcomparable encoding of each indexed value and the row id, big-endian.
-/

namespace InlaySql.Sql

open Lib

/-- Why a running statement was stopped. -/
inductive Stopped where
  | timeout
  | killed
  deriving DecidableEq, Repr

/-- The errors of the engine. -/
inductive Error where
  | parse (message : String)
  | unsupported (message : String)
  | catalog (message : String)
  | type (message : String)
  | constraint (message : String)
  | bind (message : String)
  | stale (message : String)
  | storage (message : String)
  | conflict
  | transaction (message : String)
  | index (message : String)
  | corrupt (message : String)
  | formatVersion (message : String)
  | tooBig (message : String)
  | memory (message : String)
  | cancelled (stopped : Stopped)
  deriving DecidableEq, Repr

/-- A row id, a `u64`. -/
abbrev RowId := Nat

/-! ## Doubles -/

/-- A double, as its bits. -/
structure F64 where
  bits : UInt64
  deriving DecidableEq, Repr

namespace F64

def signBit : UInt64 := 0x8000000000000000

/-- The bits without the sign. -/
def magnitude (value : F64) : UInt64 := value.bits &&& 0x7fffffffffffffff

def isNan (value : F64) : Bool := 0x7ff0000000000000 < value.magnitude

def isZero (value : F64) : Bool := value.magnitude == 0

/-- `==` of two doubles: the two zeros are one value, a `NaN` equals nothing. -/
def eq (left right : F64) : Bool :=
  !left.isNan && !right.isNan && (left == right || left.isZero && right.isZero)

/-- The significand of a magnitude whose top bit is `top`, rounded to 53 bits, ties to
even. -/
def significand (magnitude top : Nat) : Nat :=
  if top ≤ 52 then magnitude * 2 ^ (52 - top)
  else
    let unit := 2 ^ (top - 52)
    let quotient := magnitude / unit
    let rest := magnitude % unit
    if unit < 2 * rest ∨ (2 * rest = unit ∧ quotient % 2 = 1) then quotient + 1 else quotient

/-- `i as f64`. A significand that rounds up to 2⁵³ carries into the exponent. -/
def ofInt (value : Int) : F64 :=
  let magnitude := value.natAbs
  if magnitude = 0 then ⟨0⟩
  else
    let top := magnitude.log2
    let bits := (1023 + top) * 2 ^ 52 + (significand magnitude top - 2 ^ 52)
    ⟨UInt64.ofNat (if value < 0 then bits + 2 ^ 63 else bits)⟩

end F64

/-- `==` of two `f32`s, given as bits. -/
def f32Eq (left right : UInt32) : Bool :=
  let magnitude (bits : UInt32) := bits &&& 0x7fffffff
  magnitude left ≤ 0x7f800000 && magnitude right ≤ 0x7f800000 &&
    (left == right || magnitude left == 0 && magnitude right == 0)

/-! ## Values -/

/-- A runtime value. -/
inductive Value where
  | null
  | integer (value : Int)
  | real (value : F64)
  | text (value : String)
  | blob (value : Bytes)
  | vector (lanes : List UInt32)
  deriving DecidableEq, Repr

/-- A row: one value for each column it was written with. -/
abbrev Row := List Value

namespace Value

def isNull (value : Value) : Bool := value == .null

/-- `as_f64`: a number, integers widened. -/
def asF64 : Value -> Option F64
  | .integer value => some (F64.ofInt value)
  | .real value => some value
  | _ => none

/-- `==` of two values. -/
def eq : Value -> Value -> Bool
  | .null, .null => true
  | .integer left, .integer right => left == right
  | .real left, .real right => left.eq right
  | .text left, .text right => left == right
  | .blob left, .blob right => left == right
  | .vector left, .vector right =>
    left.length == right.length && (left.zip right).all fun (a, b) => f32Eq a b
  | _, _ => false

end Value

/-- The value at an ordinal; a row is only as wide as it was written. -/
def Row.cell (row : Row) (ordinal : Nat) : Value := (row[ordinal]?).getD .null

/-! ## Collations -/

/-- A collating sequence. -/
inductive Collation where
  | binary
  | noCase
  | rTrim
  deriving DecidableEq, Repr, Inhabited

/-- The UTF-8 bytes of a text. -/
def utf8 (text : String) : Bytes := text.toList.flatMap String.utf8EncodeChar

/-- `u8::to_ascii_lowercase`. -/
def lowerByte (byte : UInt8) : UInt8 := if 65 ≤ byte ∧ byte ≤ 90 then byte + 32 else byte

namespace Collation

/-- `fold`: the bytes the collation compares. -/
def fold : Collation -> Bytes -> Bytes
  | .binary, bytes => bytes
  | .noCase, bytes => bytes.map lowerByte
  | .rTrim, bytes => (bytes.reverse.dropWhile (· == 32)).reverse

/-- The pairwise comparison of `NOCASE`; the shorter text decides a tie. -/
def compareNoCase : Bytes -> Bytes -> Ordering
  | left :: lefts, right :: rights =>
    match compare (lowerByte left) (lowerByte right) with
    | .eq => compareNoCase lefts rights
    | decided => decided
  | lefts, rights => compare lefts.length rights.length

def compare (collation : Collation) (left right : String) : Ordering :=
  match collation with
  | .binary => List.compareLex Ord.compare (utf8 left) (utf8 right)
  | .noCase => compareNoCase (utf8 left) (utf8 right)
  | .rTrim => List.compareLex Ord.compare (rTrim.fold (utf8 left)) (rTrim.fold (utf8 right))

/-- `collation::at`: the collation of a position, `BINARY` past the end. -/
def atPosition (collations : List Collation) (position : Nat) : Collation :=
  (collations[position]?).getD .binary

end Collation

/-- `unique_key_collides`: whether two rows share the key of a `UNIQUE` group. -/
def valuesCollide (collation : Collation) (left right : Value) : Bool :=
  if left.isNull || right.isNull then false
  else
    match left, right with
    | .integer left, .integer right => left == right
    | .integer _, .real _ | .real _, .integer _ | .real _, .real _ =>
      match left.asF64, right.asF64 with
      | some left, some right => left.eq right
      | _, _ => false
    | .text left, .text right => collation.compare left right == .eq
    | left, right => left.eq right

def uniqueKeyCollides (group : List Nat) (collations : List Collation) (row other : Row) : Bool :=
  group.zipIdx.all fun (ordinal, position) =>
    valuesCollide (Collation.atPosition collations position) (row.cell ordinal) (other.cell ordinal)

/-! ## Index keys -/

/-- The `width` low bytes of `value`, most significant first. -/
def beBytes (width value : Nat) : Bytes := (leBytes width value).reverse

/-- `encode_bytes`: a zero byte is escaped, and the payload ends with `00 01`. -/
def encodeBytes (bytes : Bytes) : Bytes :=
  (bytes.flatMap fun byte => if byte = 0 then [byte, 255] else [byte]) ++ [0, 1]

/-- `total_order`: the unsigned order of the result is the numeric order. -/
def totalOrder (value : F64) : Except Error UInt64 :=
  if value.isNan then
    .error (.unsupported ("NaN cannot be stored in an indexed column: this engine's comparison " ++
      "treats NaN as equal to every number, which no ordered index can reproduce, so indexing " ++
      "it would make a query answered from the index return different rows than a scan"))
  else
    let bits := if value.isZero then 0 else value.bits
    .ok (if bits &&& F64.signBit ≠ 0 then ~~~bits else bits ||| F64.signBit)

/-- `encode_value` of the index. -/
def encodeValue (collation : Collation) : Value -> Except Error Bytes
  | .null => .ok [1]
  | .integer value => do return 2 :: beBytes 8 (<- totalOrder (F64.ofInt value)).toNat
  | .real value => do return 2 :: beBytes 8 (<- totalOrder value).toNat
  | .text value => .ok (3 :: encodeBytes (collation.fold (utf8 value)))
  | .blob value => .ok (4 :: encodeBytes value)
  | .vector _ =>
    .error (.unsupported "a VECTOR value has no ordering and cannot be a B-tree index key")

/-- ASCII letters of a name in lower case. -/
def lower (name : String) : String := name.toLower

theorem toLower_cases (c : Char) :
    c.toLower = c ∨ (97 ≤ c.toLower.toNat ∧ c.toLower.toNat ≤ 122) := by
  unfold Char.toLower
  split
  · rename_i upper
    right
    obtain ⟨low, high⟩ := upper
    simp only [ge_iff_le, UInt32.le_iff_toNat_le] at low high
    simp only [Char.toNat, UInt32.toNat_add]
    simp at low high ⊢
    omega
  · exact .inl rfl

theorem toLower_toLower (c : Char) : c.toLower.toLower = c.toLower := by
  rcases toLower_cases c with same | ⟨low, high⟩
  · rw [same, same]
  · generalize c.toLower = letter at low high
    unfold Char.toLower
    rw [dif_neg]
    rintro ⟨-, small⟩
    simp only [UInt32.le_iff_toNat_le] at small
    simp at small
    omega

theorem toList_lower (name : String) : (lower name).toList = name.toList.map Char.toLower := by
  simp [lower, String.toLower]

@[simp] theorem lower_lower (name : String) : lower (lower name) = lower name := by
  apply String.toList_injective
  simp [toList_lower]

/-- `index_prefix`: the bytes every entry of an index starts with. -/
def indexPrefix (index : String) : Bytes :=
  [1, 105, 100, 120, 58] ++ utf8 (lower index) ++ [0]

/-- The encodings of a list of values, the collations taken from `position` on. -/
def encodeValues (collations : List Collation) : Nat -> List Value -> Except Error Bytes
  | _, [] => .ok []
  | position, value :: rest => do
      return (<- encodeValue (Collation.atPosition collations position) value) ++
        (<- encodeValues collations (position + 1) rest)

/-- `probe_prefix`: what the entries of rows with these leading values start with. -/
def probePrefix (index : String) (values : List Value) (collations : List Collation) :
    Except Error Bytes := do
  return indexPrefix index ++ (<- encodeValues collations 0 values)

/-- `upper_bound`: the first key that does not start with `start`, if there is one. -/
def upperBound (start : Bytes) : Option Bytes :=
  match start.reverse.dropWhile (· == 255) with
  | [] => none
  | last :: front => some (((last + 1) :: front).reverse)

/-- A half-open range of index keys. -/
structure KeyRange where
  start : Bytes
  stop : Option Bytes
  deriving DecidableEq, Repr

namespace KeyRange

/-- Every key that starts with `start`. -/
def ofPrefix (start : Bytes) : KeyRange := ⟨start, upperBound start⟩

/-- `equality`: the entries whose leading columns equal `values`. -/
def equality (index : String) (values : List Value) (collations : List Collation) :
    Except Error KeyRange := do
  return ofPrefix (<- probePrefix index values collations)

/-- `whole`: every entry of an index. -/
def whole (index : String) : KeyRange := ofPrefix (indexPrefix index)

/-- Whether a key lies in the range. -/
def contains (range : KeyRange) (key : Bytes) : Bool :=
  decide (range.start ≤ key) && range.stop.all fun stop => decide (key < stop)

end KeyRange

def entryKey (index : String) (values : List Value) (collations : List Collation) (id : RowId) :
    Except Error Bytes := do
  return (<- probePrefix index values collations) ++ beBytes 8 id

end InlaySql.Sql
