import InlaySql.Lib.Cursor
import InlaySql.Sql.Declare

/-!
# The stored catalog

The catalog is stored as one byte string, in the lowest of eight format versions that can say
what it declares. Each version adds fields at the end of what was there before. A string
without the magic prefix is a version-1 catalog, whose columns are indexed by the declarations
it would have had.
-/

namespace InlaySql.Sql

open Lib
open Stateful Cursor

/-! ## Writing -/

/-- `put_len`: the low four bytes. -/
def putLen (n : Nat) : Bytes := leBytes 4 n

def putString (text : String) : Bytes := putLen (utf8 text).length ++ utf8 text

/-- `u8::from`. -/
def putBool (flag : Bool) : Bytes := [if flag then 1 else 0]

def putOptionString : Option String -> Bytes
  | some text => 1 :: putString text
  | none => [0]

/-- A list, its length first. -/
def putStrings (texts : List String) : Bytes := putLen texts.length ++ texts.flatMap putString

def Collation.tag : Collation -> UInt8
  | .binary => 1
  | .noCase => 2
  | .rTrim => 3

def VectorMetric.tag : VectorMetric -> UInt8
  | .cosine => 0
  | .l2 => 1

def IndexKind.tag : IndexKind -> UInt8
  | .fullText => 1
  | .vector => 2
  | .btree => 3

def DataType.tag : DataType -> UInt8
  | .integer => 1
  | .real => 2
  | .text => 3
  | .blob => 4
  | .vector _ => 5
  | .quantizedVector _ => 6
  | .numeric => 7
  | .any => 8

namespace Catalog

/-- The magic prefix, `ISQL`. -/
def catalogMagic : Bytes := [73, 83, 81, 76]

def catalogVersionExact : Nat := 2
def catalogVersionQuantized : Nat := 3
def catalogVersionConstraints : Nat := 4
def catalogVersionBtree : Nat := 5
def catalogVersionCollation : Nat := 6
def catalogVersionMetric : Nat := 7
def catalogVersionStrict : Nat := 8
def catalogVersionWithoutRowid : Nat := 9

/-- The durable tables, in key order. -/
def tableList (self : Catalog) : List Table := self.tables.toList.map (·.2)

/-- The index declarations, in key order. -/
def indexList (self : Catalog) : List Index := self.indexes.toList.map (·.2)

/-- `required_version`: the lowest format version that can express this catalog. -/
def requiredVersion (self : Catalog) : Nat :=
  let columns := self.tableList.flatMap (·.columns)
  if self.tableList.any (·.withoutRowid) then catalogVersionWithoutRowid
  else if self.tableList.any fun table => table.strict || table.columns.any (·.ty == .any) then
    catalogVersionStrict
  else if self.indexList.any (·.metric != .cosine) then catalogVersionMetric
  else if columns.any (·.collation != .binary) ||
      self.indexList.any (·.collations.any (· != .binary)) then catalogVersionCollation
  else if self.indexList.any fun index =>
      index.kind == .btree || index.unique || index.columns.length != 1 then catalogVersionBtree
  else if (self.constraintsOf.toList.any fun (_, constraints) => !constraints.isEmpty) ||
      (columns.any fun column => column.notNull || column.default.isSome) ||
      columns.any (·.ty == .numeric) then catalogVersionConstraints
  else if columns.any (·.ty.isQuantizedVector) then catalogVersionQuantized
  else catalogVersionExact

/-- One column. The key flag is the high bit of the type tag. -/
def encodeColumn (version : Nat) (column : Column) : Bytes :=
  putString column.name ++ [column.ty.tag ||| (if column.primaryKey then 0x80 else 0)] ++
    column.ty.vectorDim.elim [] putLen ++
    (if catalogVersionConstraints ≤ version then
      putBool column.notNull ++ putOptionString column.default else []) ++
    (if catalogVersionCollation ≤ version then [column.collation.tag] else [])

def encodeUnique (group : UniqueConstraint) : Bytes :=
  putOptionString group.name ++ putStrings group.columns

def encodeForeignKey (key : ForeignKey) : Bytes :=
  putStrings key.columns ++ putString key.table ++ putStrings key.referenced ++
    putOptionString key.onDelete ++ putOptionString key.onUpdate

def encodeConstraints (constraints : TableConstraints) : Bytes :=
  putLen constraints.unique.length ++ constraints.unique.flatMap encodeUnique ++
    putLen constraints.checks.length ++ constraints.checks.flatMap putString ++
    putLen constraints.foreignKeys.length ++ constraints.foreignKeys.flatMap encodeForeignKey

/-- One table with the constraints filed under its key. -/
def encodeTable (version : Nat) (table : Table) (constraints : TableConstraints) : Bytes :=
  putString table.name ++
    (if catalogVersionStrict ≤ version then putBool table.strict else []) ++
    (if catalogVersionWithoutRowid ≤ version then
      putBool table.withoutRowid ++ putStrings table.primaryKey else []) ++
    putLen table.columns.length ++ table.columns.flatMap (encodeColumn version) ++
    (if catalogVersionConstraints ≤ version then encodeConstraints constraints else [])

/-- One index declaration. The collations are written from the column list's length. -/
def encodeIndex (version : Nat) (index : Index) : Bytes :=
  putString index.name ++ putString index.table ++
    (if catalogVersionBtree ≤ version then putStrings index.columns else putString index.column) ++
    [index.kind.tag] ++
    (if catalogVersionBtree ≤ version then putBool index.unique else []) ++
    (if catalogVersionCollation ≤ version then
      (List.range index.columns.length).map fun position => (index.collation position).tag
    else []) ++
    (if catalogVersionMetric ≤ version then [index.metric.tag] else [])

/-- `encode`: in the lowest version that fits. -/
def encode (self : Catalog) : Bytes :=
  let version := self.requiredVersion
  catalogMagic ++ leBytes 4 version ++ putLen self.tables.size ++
    (self.tables.toList.flatMap fun (key, table) =>
      encodeTable version table ((self.constraintsOf[key]?).getD .empty)) ++
    putLen self.indexes.size ++ self.indexList.flatMap (encodeIndex version)

end Catalog

/-! ## Reading -/

/-- `core::str::from_utf8`. -/
def fromUtf8 (bytes : Bytes) : Option String := String.fromUTF8? bytes.toByteArray

namespace Cursor

/-- An error of the format. -/
def refuse {α : Type} (message : String) : Reader Error α :=
  Stateful.fail (.raised (.corrupt message))

/-- `Cursor::string`. -/
def string : Reader Error String := do
  let length <- u32 .corrupt
  let bytes <- take .corrupt length
  match fromUtf8 bytes with
  | some text => return text
  | none => refuse "string is not valid UTF-8"

/-- A `bool`, where anything but zero is true. -/
def flag : Reader Error Bool := do return (<- u8 .corrupt) != 0

/-- `take_option_string`. -/
def optionString : Reader Error (Option String) := do
  let present <- u8 .corrupt
  if present = 0 then return none
  else if present = 1 then return some (<- string)
  else refuse s!"expected 0 or 1 for an optional string, got {present}"

/-- A list of strings, its length first. -/
def strings : Reader Error (List String) := do
  let count <- count .corrupt 4
  many string count

end Cursor

def Collation.fromTag (tag : UInt8) : Except Error Collation :=
  if tag = 1 then .ok .binary
  else if tag = 2 then .ok .noCase
  else if tag = 3 then .ok .rTrim
  else .error (.corrupt s!"unknown collation tag {tag}")

def VectorMetric.fromTag (tag : UInt8) : Except Error VectorMetric :=
  if tag = 0 then .ok .cosine
  else if tag = 1 then .ok .l2
  else .error (.corrupt s!"vector index distance metric tag {tag} is not one this build knows")

/-- What a computation without a cursor gives. -/
def lift {α : Type} (result : Except Error α) : Reader Error α :=
  Stateful.ofExcept (result.mapError .raised)

namespace Catalog

open Sql.Cursor

/-- A field the formats from `first` on have. -/
def since {α : Type} (first version : Nat) (read : Reader Error α) (absent : α) : Reader Error α :=
  if first ≤ version then read else pure absent

def decodeCollation : Reader Error Collation := do lift (Collation.fromTag (<- u8 .corrupt))

def decodeMetric : Reader Error VectorMetric := do lift (VectorMetric.fromTag (<- u8 .corrupt))

/-- The type a tag names, with the dimension of a vector read after it. -/
def decodeType (version : Nat) (tag : UInt8) : Reader Error DataType := do
  if tag = 1 then return .integer
  else if tag = 2 then return .real
  else if tag = 3 then return .text
  else if tag = 4 then return .blob
  else if tag = 7 ∧ catalogVersionConstraints ≤ version then return .numeric
  else if tag = 5 then return .vector (<- u32 .corrupt)
  else if tag = 6 ∧ catalogVersionQuantized ≤ version then
    return .quantizedVector (<- u32 .corrupt)
  else if tag = 8 ∧ catalogVersionStrict ≤ version then return .any
  else refuse s!"unknown catalog type tag {tag}"

def decodeColumn (version : Nat) : Reader Error Column := do
  let name <- string
  let tag <- u8 .corrupt
  let ty <- decodeType version (tag &&& 0x7f)
  let notNull <- since catalogVersionConstraints version flag false
  let default <- since catalogVersionConstraints version optionString none
  let collation <- since catalogVersionCollation version decodeCollation .binary
  return { name, ty, primaryKey := tag &&& 0x80 != 0, notNull, default, collation }

def decodeUnique : Reader Error UniqueConstraint := do
  return { name := <- optionString, columns := <- strings }

def decodeForeignKey : Reader Error ForeignKey := do
  let columns <- strings
  let table <- string
  let referenced <- strings
  let onDelete <- optionString
  let onUpdate <- optionString
  return { columns, table, referenced, onDelete, onUpdate }

def decodeConstraints : Reader Error TableConstraints := do
  let unique <- count .corrupt 5 >>= many decodeUnique
  let checks <- count .corrupt 4 >>= many string
  let foreignKeys <- count .corrupt 14 >>= many decodeForeignKey
  return { unique, checks, foreignKeys }

def decodeTable (version : Nat) : Reader Error (Table × TableConstraints) := do
  let name <- string
  let strict <- since catalogVersionStrict version flag false
  let withoutRowid <- since catalogVersionWithoutRowid version flag false
  let primaryKey <- since catalogVersionWithoutRowid version strings []
  let columns <- count .corrupt 5 >>= many (decodeColumn version)
  let constraints <- since catalogVersionConstraints version decodeConstraints .empty
  return ({ name, columns, strict, withoutRowid, primaryKey, temporary := false }, constraints)

/-- One step of `decode_tables`: the table is registered as a new one would be. -/
def decodeTableInto (version : Nat) (catalog : Catalog) : Reader Error Catalog := do
  let (table, constraints) <- decodeTable version
  lift (catalog.createTableWith table constraints)

def decodeTables (version : Nat) : Reader Error Catalog := do
  let tableCount <- count .corrupt 8
  fold (decodeTableInto version) tableCount .empty

def decodeKind (version : Nat) : Reader Error IndexKind := do
  let tag <- u8 .corrupt
  if tag = 1 then return .fullText
  else if tag = 2 then return .vector
  else if tag = 3 ∧ catalogVersionBtree ≤ version then return .btree
  else refuse s!"unknown index kind tag {tag}"

/-- The columns of an index: a list, or the one column of the older formats. -/
def columnNames (version : Nat) : Reader Error (List String) :=
  if catalogVersionBtree ≤ version then strings else do return [<- string]

/-- One index declaration. -/
def decodeIndex (version : Nat) : Reader Error Index := do
  let name <- string
  let table := lower (<- string)
  let columns <- columnNames version
  let kind <- decodeKind version
  let unique <- since catalogVersionBtree version flag false
  if columns.isEmpty then refuse s!"index `{name}` names no columns"
  else
    let collations <- many (since catalogVersionCollation version decodeCollation .binary)
      columns.length
    let metric <- since catalogVersionMetric version decodeMetric .cosine
    return { name, table, columns := columns.map lower, kind, unique, collations, metric }

def decodeIndexInto (version : Nat) (catalog : Catalog) : Reader Error Catalog := do
  let index <- decodeIndex version
  return { catalog with indexes := catalog.indexes.insert (lower index.name) index }

def decodeVersioned : Reader Error Catalog := do
  let _ <- take .corrupt catalogMagic.length
  let version <- u32 .corrupt
  if version < catalogVersionExact ∨ catalogVersionWithoutRowid < version then
    Stateful.fail (.raised (.formatVersion (s!"catalog format version {version} is not supported " ++
      s!"(this build supports {catalogVersionExact} through {catalogVersionWithoutRowid}); " ++
      "pre-1.0 the policy is to recreate the database, not to migrate it")))
  else
    let catalog <- decodeTables version
    let indexCount <- count .corrupt 4
    fold (decodeIndexInto version) indexCount catalog

/-- The declarations `grandfather` gives one table. -/
def grandfathered (table : Table) : List Index :=
  table.columns.filterMap fun column =>
    (Engine.implicitIndex table column).map fun index =>
      { index with name := autoIndexName (lower table.name) (lower column.name) }

def grandfather (self : Catalog) : Catalog :=
  { self with
    indexes := (self.tableList.flatMap grandfathered).foldl
      (fun indexes index => indexes.insert (lower index.name) index) self.indexes }

/-- `decode`, through a cursor at the start of the bytes. -/
def decodeFrom (bytes : Bytes) : Except (Fault Error) Catalog × Cursor :=
  if catalogMagic <+: bytes then decodeVersioned (Cursor.new bytes)
  else (do return (<- decodeTables 1).grandfather : Reader Error Catalog) (Cursor.new bytes)

def decode (bytes : Bytes) : Except (Fault Error) Catalog := (decodeFrom bytes).1

end Catalog

end InlaySql.Sql
