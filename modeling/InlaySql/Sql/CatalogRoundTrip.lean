import InlaySql.Sql.CatalogCodec
import InlaySql.Sql.CatalogKept

/-!
# What the stored catalog gives back

A catalog reached by the engine's calls is read back from its bytes exactly when it holds no
emptied list of constraints and nothing longer or wider than a `u32`: the writer skips the one
and cuts the other. Reading any byte string stays inside it.
-/

namespace InlaySql.Sql

open List Lib
open Stateful Reader

/-! ## Texts -/

/-- A text whose length is a `u32`. -/
def Short (text : String) : Prop := (utf8 text).length < 2 ^ 32

instance (text : String) : Decidable (Short text) := inferInstanceAs (Decidable (_ < _))

variable (text : String)

theorem toByteArray_utf8 : (utf8 text).toByteArray = text.toByteArray := by
  rw [<- String.utf8Encode_toList]
  rfl

theorem fromUtf8_utf8 : fromUtf8 (utf8 text) = some text := by
  rw [fromUtf8, toByteArray_utf8, String.fromUTF8?, dif_pos text.isValidUTF8]
  rfl

theorem length_of_fromUtf8 {bytes : Bytes} {text : String} (decoded : fromUtf8 bytes = some text) :
    (utf8 text).length = bytes.length := by
  unfold fromUtf8 String.fromUTF8? at decoded
  split at decoded
  · cases decoded
    have same : (utf8 (String.fromUTF8 bytes.toByteArray ‹_›)).toByteArray = bytes.toByteArray :=
      toByteArray_utf8 _
    simpa using congrArg ByteArray.size same
  · cases decoded

theorem utf8Size_toLower (char : Char) : char.toLower.utf8Size = char.utf8Size := by
  unfold Char.toLower
  split
  · rename_i capital
    obtain ⟨low, high⟩ := capital
    have one : ∀ letter : Char, letter.val ≤ 127 → letter.utf8Size = 1 := fun _ ascii => if_pos ascii
    rw [UInt32.le_iff_toNat_le] at high
    have upper : char.val ≤ 127 := by
      rw [UInt32.le_iff_toNat_le]
      simp at high ⊢
      omega
    have small : char.val + 32 ≤ 127 := by
      rw [UInt32.le_iff_toNat_le, UInt32.toNat_add]
      simp at high ⊢
      omega
    rw [one _ small, one _ upper]
  · rfl

theorem length_utf8_lower : (utf8 (lower text)).length = (utf8 text).length := by
  rw [utf8, utf8, toList_lower, flatMap_map, List.length_flatMap, List.length_flatMap]
  simp only [String.length_utf8EncodeChar, utf8Size_toLower]

theorem short_lower {text : String} (short : Short text) : Short (lower text) := by
  rwa [Short, length_utf8_lower]

/-! ## Reading back what was written -/

section Fields

open Cursor

theorem reads_string {text : String} (short : Short text) : Reads string (putString text) text := by
  unfold string putString
  refine (Reads.u32 Error.corrupt short).bind ?_
  refine Reads.cast ((Reads.take Error.corrupt (utf8 text)).bind ?_) (append_nil _)
  simp only [fromUtf8_utf8]
  exact .pure text

theorem reads_flag (value : Bool) : Reads flag (putBool value) value := by
  have read := (Reads.u8 Error.corrupt (if value then 1 else 0)).map (f := (· != 0))
  cases value <;> exact read

theorem reads_optionString {text : Option String} (short : ∀ value ∈ text, Short value) :
    Reads optionString (putOptionString text) text := by
  cases text with
  | none =>
    have read : Reads optionString ([0] ++ []) none :=
      (Reads.u8 Error.corrupt 0).bind (Reads.pure none)
    exact read
  | some text =>
    have read : Reads optionString ([1] ++ putString text) (some text) :=
      (Reads.u8 Error.corrupt 1).bind ((reads_string (short text rfl)).map (f := some))
    exact read

theorem four_le_putString (text : String) : 4 ≤ (putString text).length := by
  simp [putString, putLen]

theorem reads_strings {texts : List String} (fits : texts.length < 2 ^ 32)
    (short : ∀ text ∈ texts, Short text) : Reads strings (putStrings texts) texts :=
  .counted (by decide) fits (fun text _ => four_le_putString text)
    fun text member => reads_string (short text member)

end Fields

/-! ## What the format has room for -/

/-- A list of texts that can be written. -/
def ShortList (texts : List String) : Prop :=
  texts.length < 2 ^ 32 ∧ ∀ text ∈ texts, Short text

structure Column.Storable (column : Column) : Prop where
  name : Short column.name
  default : ∀ text ∈ column.default, Short text
  dim : ∀ dim ∈ column.ty.vectorDim, dim < 2 ^ 32

structure ForeignKey.Storable (key : ForeignKey) : Prop where
  columns : ShortList key.columns
  table : Short key.table
  referenced : ShortList key.referenced
  onDelete : ∀ text ∈ key.onDelete, Short text
  onUpdate : ∀ text ∈ key.onUpdate, Short text

structure TableConstraints.Storable (constraints : TableConstraints) : Prop where
  unique : constraints.unique.length < 2 ^ 32
  groups : ∀ group ∈ constraints.unique,
    (∀ text ∈ group.name, Short text) ∧ ShortList group.columns
  checks : ShortList constraints.checks
  foreignKeys : constraints.foreignKeys.length < 2 ^ 32
  references : ∀ key ∈ constraints.foreignKeys, key.Storable

structure Table.Storable (table : Table) : Prop where
  name : Short table.name
  primaryKey : ShortList table.primaryKey
  width : table.columns.length < 2 ^ 32
  columns : ∀ column ∈ table.columns, column.Storable

structure Index.Storable (index : Index) : Prop where
  name : Short index.name
  table : Short index.table
  columns : ShortList index.columns

/-- Every number and length the catalog holds fits a `u32`, and no list of constraints is
empty. -/
structure Storable (catalog : Catalog) : Prop where
  tableCount : catalog.tables.size < 2 ^ 32
  tables : ∀ {key : String} {table : Table}, catalog.tables[key]? = some table -> table.Storable
  constraints : ∀ {key : String} {constraints : TableConstraints},
    catalog.constraintsOf[key]? = some constraints ->
      constraints.isEmpty = false ∧ constraints.Storable
  indexCount : catalog.indexes.size < 2 ^ 32
  indexes : ∀ {key : String} {index : Index}, catalog.indexes[key]? = some index -> index.Storable

/-! ## What a version leaves out -/

/-- What a version cannot say of a column, the column does not have. -/
structure Column.Fits (version : Nat) (column : Column) : Prop where
  quantized : ¬Catalog.catalogVersionQuantized ≤ version -> column.ty.isQuantizedVector = false
  numeric : ¬Catalog.catalogVersionConstraints ≤ version -> column.ty ≠ .numeric
  notNull : ¬Catalog.catalogVersionConstraints ≤ version -> column.notNull = false
  default : ¬Catalog.catalogVersionConstraints ≤ version -> column.default = none
  collation : ¬Catalog.catalogVersionCollation ≤ version -> column.collation = .binary
  any : ¬Catalog.catalogVersionStrict ≤ version -> column.ty ≠ .any

structure Table.Fits (version : Nat) (table : Table) : Prop where
  columns : ∀ column ∈ table.columns, column.Fits version
  strict : ¬Catalog.catalogVersionStrict ≤ version -> table.strict = false
  withoutRowid : ¬Catalog.catalogVersionWithoutRowid ≤ version -> table.withoutRowid = false

structure Index.Fits (version : Nat) (index : Index) : Prop where
  btree : ¬Catalog.catalogVersionBtree ≤ version ->
    index.kind ≠ .btree ∧ index.unique = false ∧ index.columns.length = 1
  collations : ¬Catalog.catalogVersionCollation ≤ version ->
    ∀ collation ∈ index.collations, collation = .binary
  metric : ¬Catalog.catalogVersionMetric ≤ version -> index.metric = .cosine

section Columns

open Catalog

variable {version : Nat}

variable {column : Column} {constraints : TableConstraints}

theorem reads_type (storable : column.Storable) (fits : column.Fits version) :
    Reads (decodeType version column.ty.tag)
      (column.ty.vectorDim.elim [] putLen) column.ty := by
  obtain ⟨-, -, dim⟩ := storable
  obtain ⟨quantized, numeric, -, -, -, any⟩ := fits
  unfold decodeType
  cases ty : column.ty with
  | integer => exact .pure _
  | real => exact .pure _
  | text => exact .pure _
  | blob => exact .pure _
  | numeric =>
    have new : catalogVersionConstraints ≤ version := by
      by_contra old
      exact numeric old ty
    simpa [DataType.tag, DataType.vectorDim, new] using Reads.pure DataType.numeric
  | any =>
    have new : catalogVersionStrict ≤ version := by
      by_contra old
      exact any old ty
    simpa [DataType.tag, DataType.vectorDim, new] using Reads.pure DataType.any
  | vector width =>
    have small : width < 2 ^ 32 := dim width (by simp [ty, DataType.vectorDim])
    have read := (Reads.u32 Error.corrupt small).map (f := DataType.vector)
    simpa [DataType.tag, DataType.vectorDim, putLen] using read
  | quantizedVector width =>
    have small : width < 2 ^ 32 := dim width (by simp [ty, DataType.vectorDim])
    have new : catalogVersionQuantized ≤ version := by
      by_contra old
      simpa [ty, DataType.isQuantizedVector] using quantized old
    have read := (Reads.u32 Error.corrupt small).map (f := DataType.quantizedVector)
    simpa [DataType.tag, DataType.vectorDim, putLen, new] using read

theorem reads_ofExcept {α : Type} {result : Except Error α} {value : α} (holds : result = .ok value) :
    Reads (lift result) [] value := by
  rw [holds]
  exact .pure value

theorem reads_collation (collation : Collation) :
    Reads decodeCollation [collation.tag] collation := by
  refine Reads.cast ((Reads.u8 Error.corrupt collation.tag).bind (reads_ofExcept ?_)) (append_nil _)
  cases collation <;> rfl

theorem reads_metric (metric : VectorMetric) : Reads decodeMetric [metric.tag] metric := by
  refine Reads.cast ((Reads.u8 Error.corrupt metric.tag).bind (reads_ofExcept ?_)) (append_nil _)
  cases metric <;> rfl

theorem tag_split (ty : DataType) (primaryKey : Bool) :
    (ty.tag ||| (if primaryKey then 0x80 else 0)) &&& 0x7f = ty.tag ∧
      ((ty.tag ||| (if primaryKey then 0x80 else 0)) &&& 0x80 != 0) = primaryKey := by
  cases ty <;> cases primaryKey <;> simp only [DataType.tag] <;> decide

theorem reads_since {α : Type} {first : Nat} {read : Reader Error α} {image : Bytes}
    {value absent : α} (reads : Reads read image value)
    (same : ¬first ≤ version -> value = absent) :
    Reads (since first version read absent) (if first ≤ version then image else []) value :=
  .gated (fun _ => reads) fun old => (same old).symm

theorem reads_column (storable : column.Storable) (fits : column.Fits version) :
    Reads (decodeColumn version) (encodeColumn version column) column := by
  obtain ⟨low, high⟩ := tag_split column.ty column.primaryKey
  unfold decodeColumn
  have last : Reads (Pure.pure { column with
      primaryKey := (column.ty.tag ||| (if column.primaryKey then 0x80 else 0)) &&& 0x80 != 0 } :
      Reader Error Column) [] column := by
    rw [high]
    exact .pure column
  refine Reads.cast ((reads_string storable.name).bind <| (Reads.u8 Error.corrupt _).bind <|
    Reads.bind (low.symm ▸ reads_type storable fits) <|
    (reads_since (reads_flag column.notNull) fits.notNull).bind <|
    (reads_since (reads_optionString storable.default) fits.default).bind <|
    (reads_since (reads_collation column.collation) fits.collation).bind last) ?_
  by_cases new : catalogVersionConstraints ≤ version <;> simp [encodeColumn, new]

theorem reads_unique {group : UniqueConstraint} (name : ∀ text ∈ group.name, Short text)
    (columns : ShortList group.columns) : Reads decodeUnique (encodeUnique group) group :=
  (reads_optionString name).bind
    ((reads_strings columns.1 columns.2).map (f := UniqueConstraint.mk group.name))

theorem reads_foreignKey {key : ForeignKey} (storable : key.Storable) :
    Reads decodeForeignKey (encodeForeignKey key) key := by
  unfold decodeForeignKey
  refine Reads.cast ((reads_strings storable.columns.1 storable.columns.2).bind <|
    (reads_string storable.table).bind <|
    (reads_strings storable.referenced.1 storable.referenced.2).bind <|
    (reads_optionString storable.onDelete).bind <|
    (reads_optionString storable.onUpdate).bind <| .pure key) ?_
  simp [encodeForeignKey]

theorem one_le_putOptionString (text : Option String) : 1 ≤ (putOptionString text).length := by
  cases text <;> simp [putOptionString]

theorem four_le_putStrings (texts : List String) : 4 ≤ (putStrings texts).length := by
  simp [putStrings, putLen]

theorem reads_constraints (storable : constraints.Storable) :
    Reads decodeConstraints (encodeConstraints constraints) constraints := by
  have unique : Reads (Cursor.count .corrupt 5 >>= Cursor.many decodeUnique)
      (leBytes 4 constraints.unique.length ++ constraints.unique.flatMap encodeUnique)
      constraints.unique := by
    refine .counted (by decide) storable.unique (fun group _ => ?_) fun group member =>
      reads_unique (storable.groups group member).1 (storable.groups group member).2
    have name := one_le_putOptionString group.name
    have columns := four_le_putStrings group.columns
    simp only [encodeUnique, length_append]
    omega
  have foreignKeys : Reads (Cursor.count .corrupt 14 >>= Cursor.many decodeForeignKey)
      (leBytes 4 constraints.foreignKeys.length ++ constraints.foreignKeys.flatMap encodeForeignKey)
      constraints.foreignKeys := by
    refine .counted (by decide) storable.foreignKeys (fun key _ => ?_) fun key member =>
      reads_foreignKey (storable.references key member)
    have columns := four_le_putStrings key.columns
    have table := four_le_putString key.table
    have referenced := four_le_putStrings key.referenced
    have onDelete := one_le_putOptionString key.onDelete
    have onUpdate := one_le_putOptionString key.onUpdate
    simp only [encodeForeignKey, length_append]
    omega
  unfold decodeConstraints
  refine Reads.cast (unique.bind <| (Reads.counted (by decide) storable.checks.1
    (fun text _ => four_le_putString text)
    fun text member => reads_string (storable.checks.2 text member)).bind <|
    foreignKeys.bind <| .pure constraints) ?_
  simp [encodeConstraints, putLen]

theorem five_le_encodeColumn (column : Column) : 5 ≤ (encodeColumn version column).length := by
  have name := four_le_putString column.name
  simp only [encodeColumn, length_append, length_singleton]
  omega

theorem reads_table {table : Table} (storable : table.Storable) (fits : table.Fits version)
    (kept : table.temporary = false) (rowid : table.withoutRowid = false -> table.primaryKey = [])
    (declared : constraints.Storable)
    (older : ¬catalogVersionConstraints ≤ version -> constraints = .empty) :
    Reads (decodeTable version) (encodeTable version table constraints) (table, constraints) := by
  have columns : Reads (Cursor.count .corrupt 5 >>= Cursor.many (decodeColumn version))
      (leBytes 4 table.columns.length ++ table.columns.flatMap (encodeColumn version))
      table.columns :=
    .counted (by decide) storable.width (fun column _ => five_le_encodeColumn column)
      fun column member => reads_column (storable.columns column member)
        (fits.columns column member)
  have last : Reads (Pure.pure ({ table with temporary := false }, constraints) :
      Reader Error (Table × TableConstraints)) [] (table, constraints) := by
    rw [<- kept]
    exact .pure _
  unfold decodeTable
  refine Reads.cast ((reads_string storable.name).bind <|
    (reads_since (reads_flag table.strict) fits.strict).bind <|
    (reads_since (reads_flag table.withoutRowid) fits.withoutRowid).bind <|
    (reads_since (reads_strings storable.primaryKey.1 storable.primaryKey.2)
      fun old => rowid (fits.withoutRowid old)).bind <|
    columns.bind <| (reads_since (reads_constraints declared) older).bind last) ?_
  by_cases new : catalogVersionWithoutRowid ≤ version <;> simp [encodeTable, putLen, new]

variable {index : Index}

section

variable (fits : index.Fits version)

include fits

theorem reads_columnNames (columns : ShortList index.columns) : Reads (columnNames version)
      (if catalogVersionBtree ≤ version then putStrings index.columns else putString index.column)
      index.columns := by
  unfold columnNames
  by_cases new : catalogVersionBtree ≤ version
  · rw [if_pos new, if_pos new]
    exact reads_strings columns.1 columns.2
  · obtain ⟨only, one⟩ := length_eq_one_iff.mp (fits.btree new).2.2
    have read := (reads_string (columns.2 only (by simp [one]))).map (f := fun name => [name])
    rw [if_neg new, if_neg new]
    simpa [Index.column, one] using read

theorem reads_kind : Reads (decodeKind version) [index.kind.tag] index.kind := by
  unfold decodeKind
  refine Reads.cast ((Reads.u8 Error.corrupt index.kind.tag).bind ?_) (append_nil _)
  cases kind : index.kind with
  | fullText => exact .pure _
  | vector => exact .pure _
  | btree =>
    have new : catalogVersionBtree ≤ version := by
      by_contra old
      exact (fits.btree old).1 kind
    simpa [IndexKind.tag, new] using Reads.pure IndexKind.btree

theorem reads_collations (collated : index.collations.length = index.columns.length) :
    Reads (Cursor.many (since catalogVersionCollation version decodeCollation .binary)
        index.columns.length)
      (if catalogVersionCollation ≤ version then
        (List.range index.columns.length).map fun position => (index.collation position).tag
      else []) index.collations := by
  have one (collation : Collation) (member : collation ∈ index.collations) :
      Reads (since catalogVersionCollation version decodeCollation .binary)
        (if catalogVersionCollation ≤ version then [collation.tag] else []) collation :=
    reads_since (reads_collation collation) fun old => fits.collations old collation member
  have each := Reads.many one
  rw [collated] at each
  refine each.cast ?_
  split
  · rw [<- map_eq_flatMap, <- collated]
    refine ext_getElem (by simp) fun position inside _ => ?_
    simp only [length_map] at inside
    simp [Index.collation, Collation.atPosition, getElem?_eq_getElem inside]
  · simp

end

theorem reads_index (storable : index.Storable) (fits : index.Fits version)
    (spelled : index.Spelled) : Reads (decodeIndex version) (encodeIndex version index) index := by
  have columns : index.columns.map lower = index.columns := by
    rw [map_congr_left spelled.columns, map_id']
  have last : Reads (Pure.pure { index with
      table := lower index.table, columns := index.columns.map lower } : Reader Error Index) []
      index := by
    rw [spelled.table, columns]
    exact .pure index
  have filled : ¬index.columns.isEmpty = true := by
    rw [List.isEmpty_iff]
    exact spelled.some
  unfold decodeIndex
  refine Reads.cast ((reads_string storable.name).bind <| (reads_string storable.table).bind <|
    (reads_columnNames fits storable.columns).bind <| (reads_kind fits).bind <|
    (reads_since (reads_flag index.unique) fun old => (fits.btree old).2.1).bind <|
    .passes filled <| (reads_collations fits spelled.collated).bind <|
    (reads_since (reads_metric index.metric) fits.metric).bind last) ?_
  simp only [encodeIndex, append_assoc, append_nil]

theorem four_le_encodeIndex (index : Index) : 4 ≤ (encodeIndex version index).length := by
  have name := four_le_putString index.name
  simp only [encodeIndex, length_append]
  omega

theorem eight_le_encodeTable (table : Table) (constraints : TableConstraints) :
    8 ≤ (encodeTable version table constraints).length := by
  have name := four_le_putString table.name
  simp only [encodeTable, putLen, length_append, length_leBytes]
  omega

end Columns

end InlaySql.Sql
