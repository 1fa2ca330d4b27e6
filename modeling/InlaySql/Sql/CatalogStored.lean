import InlaySql.Sql.CatalogRoundTrip
import InlaySql.Sql.CatalogWellFormed

/-!
# The catalog across a reopen

The writer scans the catalog for the lowest version that can say everything in it. What the
scan did not find, no table or index has, so each entry is read back from that version; the
entries fill the catalog in key order. The reader, in turn, returns only catalogs that can be
written, whatever bytes it is given, and never reads outside them.
-/

namespace InlaySql.Sql

open List Lib
open Stateful Reader

/-! ## A map filled in key order -/

namespace NameMap

variable {α : Type} {map : NameMap α} {keys : List String} {key other : String} {value : α}

/-- The entries under these keys. -/
def within (map : NameMap α) (keys : List String) : NameMap α :=
  map.filter fun key _ => keys.contains key

theorem getElem?_within : (map.within keys)[other]? = if other ∈ keys then map[other]? else none := by
  rw [within, Std.ExtTreeMap.getElem?_filter']
  cases map[other]? <;> simp [Option.filter]

theorem within_nil : map.within [] = ∅ := by
  apply Std.ExtTreeMap.ext_getElem?
  intro other
  simp [getElem?_within]

theorem within_concat (stored : map[key]? = some value) :
    map.within (keys ++ [key]) = (map.within keys).insert key value := by
  apply Std.ExtTreeMap.ext_getElem?
  intro other
  rw [getElem?_insert, getElem?_within, getElem?_within]
  by_cases here : key = other
  · subst here
    simp [stored]
  · simp [here, Ne.symm here]

theorem within_concat_of_none (absent : map[key]? = none) :
    map.within (keys ++ [key]) = map.within keys := by
  apply Std.ExtTreeMap.ext_getElem?
  intro other
  rw [getElem?_within, getElem?_within]
  by_cases here : other = key
  · subst here
    simp [absent]
  · simp [here]

theorem within_of_covered
    (covered : ∀ {key : String} {value : α}, map[key]? = some value -> key ∈ keys) :
    map.within keys = map := by
  apply Std.ExtTreeMap.ext_getElem?
  intro other
  rw [getElem?_within]
  split
  · rfl
  · rename_i apart
    cases stored : map[other]? with
    | none => rfl
    | some value => exact absurd (covered stored) apart

theorem mem_keys_iff : key ∈ map.toList.map (·.1) ↔ ∃ value, map[key]? = some value := by
  constructor
  · intro member
    obtain ⟨⟨_, value⟩, listed, rfl⟩ := mem_map.mp member
    exact ⟨value, Std.ExtTreeMap.mem_toList_iff_getElem?_eq_some.mp listed⟩
  · rintro ⟨value, stored⟩
    exact mem_map.mpr ⟨(key, value), Std.ExtTreeMap.mem_toList_iff_getElem?_eq_some.mpr stored,
      rfl⟩

theorem within_keys : map.within (map.toList.map (·.1)) = map :=
  within_of_covered fun stored => mem_keys_iff.mpr ⟨_, stored⟩

theorem not_mem_of_split {before after : List (String × α)}
    (split : map.toList = before ++ (key, value) :: after) :
    map[key]? = some value ∧ key ∉ before.map (·.1) := by
  constructor
  · exact Std.ExtTreeMap.mem_toList_iff_getElem?_eq_some.mp (by rw [split]; simp)
  · have distinct := Std.ExtTreeMap.distinct_keys_toList (t := map)
    rw [split, pairwise_append] at distinct
    intro member
    obtain ⟨entry, listed, same⟩ := mem_map.mp member
    have apart := distinct.2.2 entry listed (key, value) mem_cons_self
    exact apart (by simp [same])

end NameMap

/-! ## The version written -/

namespace Catalog

variable {catalog : Catalog}

theorem mem_tableList_iff {table : Table} :
    table ∈ catalog.tableList ↔ ∃ key : String, catalog.tables[key]? = some table := by
  simp [tableList, Std.ExtTreeMap.mem_toList_iff_getElem?_eq_some]

theorem mem_indexList_iff {index : Index} :
    index ∈ catalog.indexList ↔ ∃ key : String, catalog.indexes[key]? = some index := by
  simp [indexList, Std.ExtTreeMap.mem_toList_iff_getElem?_eq_some]

/-- What the scan for a version looks for, newest first, and where it stops. -/
structure Scanned (catalog : Catalog) (version : Nat) : Prop where
  low : catalogVersionExact ≤ version
  high : version ≤ catalogVersionWithoutRowid
  withoutRowid : ¬catalogVersionWithoutRowid ≤ version ->
    catalog.tableList.any (·.withoutRowid) = false
  strict : ¬catalogVersionStrict ≤ version ->
    (catalog.tableList.any fun table => table.strict || table.columns.any (·.ty == .any)) = false
  metric : ¬catalogVersionMetric ≤ version -> catalog.indexList.any (·.metric != .cosine) = false
  collation : ¬catalogVersionCollation ≤ version ->
    ((catalog.tableList.flatMap (·.columns)).any (·.collation != .binary) ||
      catalog.indexList.any (·.collations.any (· != .binary))) = false
  btree : ¬catalogVersionBtree ≤ version -> (catalog.indexList.any fun index =>
    index.kind == .btree || index.unique || index.columns.length != 1) = false
  constraints : ¬catalogVersionConstraints ≤ version ->
    ((catalog.constraintsOf.toList.any fun (_, constraints) => !constraints.isEmpty) ||
      ((catalog.tableList.flatMap (·.columns)).any
        fun column => column.notNull || column.default.isSome) ||
      (catalog.tableList.flatMap (·.columns)).any (·.ty == .numeric)) = false
  quantized : ¬catalogVersionQuantized ≤ version ->
    (catalog.tableList.flatMap (·.columns)).any (·.ty.isQuantizedVector) = false

theorem scan_stops (withoutRowid strict metric collation btree constraints quantized : Bool)
    {version : Nat}
    (stopped : version =
      if withoutRowid then 9 else if strict then 8 else if metric then 7 else if collation then 6
      else if btree then 5 else if constraints then 4 else if quantized then 3 else 2) :
    2 ≤ version ∧ version ≤ 9 ∧ (¬9 ≤ version -> withoutRowid = false) ∧
      (¬8 ≤ version -> strict = false) ∧ (¬7 ≤ version -> metric = false) ∧
      (¬6 ≤ version -> collation = false) ∧ (¬5 ≤ version -> btree = false) ∧
      (¬4 ≤ version -> constraints = false) ∧ (¬3 ≤ version -> quantized = false) := by
  subst stopped
  split_ifs <;> simp_all

theorem scanned_requiredVersion (catalog : Catalog) : catalog.Scanned catalog.requiredVersion := by
  obtain ⟨low, high, withoutRowid, strict, metric, collation, btree, constraints, quantized⟩ :=
    scan_stops _ _ _ _ _ _ _ (show catalog.requiredVersion = _ from rfl)
  exact ⟨low, high, withoutRowid, strict, metric, collation, btree, constraints, quantized⟩

section

variable {version : Nat} (scanned : catalog.Scanned version)

include scanned

theorem Scanned.table {key : String} {table : Table} (stored : catalog.tables[key]? = some table) :
    table.Fits version := by
  have listed : table ∈ catalog.tableList := mem_tableList_iff.mpr ⟨key, stored⟩
  have inside : ∀ column ∈ table.columns, column ∈ catalog.tableList.flatMap (·.columns) :=
    fun column member => mem_flatMap.mpr ⟨table, listed, member⟩
  refine ⟨fun column member => ?_, fun old => ?_, fun old => ?_⟩
  · constructor
    case quantized =>
      intro old
      simpa using any_eq_false.mp (scanned.quantized old) column (inside column member)
    case numeric =>
      intro old
      have none := (Bool.or_eq_false_iff.mp (scanned.constraints old)).2
      simpa using any_eq_false.mp none column (inside column member)
    case notNull =>
      intro old
      have none := (Bool.or_eq_false_iff.mp (Bool.or_eq_false_iff.mp (scanned.constraints old)).1).2
      have both := any_eq_false.mp none column (inside column member)
      simp only [Bool.or_eq_true, not_or, Bool.not_eq_true] at both
      exact both.1
    case default =>
      intro old
      have none := (Bool.or_eq_false_iff.mp (Bool.or_eq_false_iff.mp (scanned.constraints old)).1).2
      have both := any_eq_false.mp none column (inside column member)
      simp only [Bool.or_eq_true, not_or, Bool.not_eq_true] at both
      exact Option.isSome_eq_false_iff.mp both.2 |> Option.isNone_iff_eq_none.mp
    case collation =>
      intro old
      have none := (Bool.or_eq_false_iff.mp (scanned.collation old)).1
      simpa using any_eq_false.mp none column (inside column member)
    case any =>
      intro old
      have none := any_eq_false.mp (scanned.strict old) table listed
      simp only [Bool.or_eq_true, not_or, Bool.not_eq_true] at none
      simpa using any_eq_false.mp none.2 column member
  · have none := any_eq_false.mp (scanned.strict old) table listed
    simp only [Bool.or_eq_true, not_or, Bool.not_eq_true] at none
    exact none.1
  · simpa using any_eq_false.mp (scanned.withoutRowid old) table listed

theorem Scanned.index {key : String} {index : Index} (stored : catalog.indexes[key]? = some index) :
    index.Fits version := by
  have listed : index ∈ catalog.indexList := mem_indexList_iff.mpr ⟨key, stored⟩
  refine ⟨fun old => ?_, fun old => ?_, fun old => ?_⟩
  · have none := any_eq_false.mp (scanned.btree old) index listed
    simpa [and_assoc] using none
  · have none := any_eq_false.mp (Bool.or_eq_false_iff.mp (scanned.collation old)).2 index listed
    simpa using none
  · simpa using any_eq_false.mp (scanned.metric old) index listed

theorem Scanned.constraintsOf (old : ¬catalogVersionConstraints ≤ version) {key : String}
    {constraints : TableConstraints} (stored : catalog.constraintsOf[key]? = some constraints) :
    constraints.isEmpty = true := by
  have none := (Bool.or_eq_false_iff.mp (Bool.or_eq_false_iff.mp (scanned.constraints old)).1).1
  simpa using any_eq_false.mp none (key, constraints)
    (Std.ExtTreeMap.mem_toList_iff_getElem?_eq_some.mpr stored)

end

/-! ## The round trip -/

theorem requireColumns_eq_ok {table : Table} {columns : List String}
    (named : ∀ name ∈ columns, table.Has name) : requireColumns table columns = .ok () := by
  induction columns with
  | nil => rfl
  | cons first columns ih =>
    obtain ⟨pair, found⟩ := Option.isSome_iff_exists.mp (named first mem_cons_self)
    have one : table.requireColumn first = .ok pair := by rw [Table.requireColumn, found]
    have rest := ih fun name member => named name (mem_cons_of_mem _ member)
    show ((table.requireColumn first >>= fun _ => pure ()) >>= fun _ =>
      requireColumns table columns) = .ok ()
    rw [one]
    exact rest

theorem createTableWith_eq_ok_of_named {table : Table} {constraints : TableConstraints}
    (free : catalog.tables[lower table.name]? = none)
    (named : ∀ name ∈ constraints.named, table.Has name) :
    catalog.createTableWith table constraints = .ok { catalog with
      constraintsOf :=
        if constraints.isEmpty then catalog.constraintsOf
        else catalog.constraintsOf.insert (lower table.name) constraints
      tables := catalog.tables.insert (lower table.name) table } := by
  unfold createTableWith
  simp only [free, requireColumns_eq_ok named]
  rfl

/-- The catalog with the tables under some keys alone. -/
def upTo (self : Catalog) (keys : List String) : Catalog :=
  { Catalog.empty with
    tables := self.tables.within keys
    constraintsOf := self.constraintsOf.within keys }

section

variable (filed : Filed catalog) (storable : Storable catalog)

include filed storable

theorem reads_tableInto {before after : List (String × Table)} {key : String} {table : Table}
    (split : catalog.tables.toList = before ++ (key, table) :: after) :
    Reads (decodeTableInto catalog.requiredVersion (catalog.upTo (before.map (·.1))))
      (encodeTable catalog.requiredVersion table ((catalog.constraintsOf[key]?).getD .empty))
      (catalog.upTo ((before ++ [(key, table)]).map (·.1))) := by
  obtain ⟨stored, unseen⟩ := NameMap.not_mem_of_split split
  have scanned := scanned_requiredVersion catalog
  have durable := filed.tables stored
  have free : (catalog.upTo (before.map (·.1))).tables[lower table.name]? = none := by
    rw [<- durable.key, upTo, NameMap.getElem?_within, if_neg unseen]
  have grown : catalog.tables.within (before.map (·.1) ++ [key]) =
      (catalog.tables.within (before.map (·.1))).insert key table :=
    NameMap.within_concat stored
  cases declared : catalog.constraintsOf[key]? with
  | none =>
    have declares : TableConstraints.empty.Storable :=
      ⟨by decide, nofun, ⟨by decide, nofun⟩, by decide, nofun⟩
    have read := reads_table (storable.tables stored) (scanned.table stored) durable.kept
      durable.rowid declares fun _ => rfl
    refine Reads.cast (read.bind (reads_ofExcept ?_)) (append_nil _)
    have unnamed : ∀ name ∈ TableConstraints.empty.named, table.Has name := by
      simp [TableConstraints.empty, TableConstraints.named]
    rw [createTableWith_eq_ok_of_named free unnamed, <- durable.key]
    simp only [upTo, map_append, map_cons, map_nil, grown, NameMap.within_concat_of_none declared]
    rfl
  | some constraints =>
    obtain ⟨filled, short⟩ := storable.constraints declared
    have read := reads_table (storable.tables stored) (scanned.table stored) durable.kept
      durable.rowid short fun old => by
        rw [scanned.constraintsOf old declared] at filled
        cases filled
    refine Reads.cast (read.bind (reads_ofExcept ?_)) (append_nil _)
    rw [createTableWith_eq_ok_of_named free (filed.named declared stored), <- durable.key]
    simp only [upTo, map_append, map_cons, map_nil, grown,
      NameMap.within_concat declared, filled, Bool.false_eq_true, if_false]

theorem reads_tables :
    Reads (decodeTables catalog.requiredVersion)
      (putLen catalog.tables.size ++ catalog.tables.toList.flatMap fun (key, table) =>
        encodeTable catalog.requiredVersion table ((catalog.constraintsOf[key]?).getD .empty))
      { catalog.durable with indexes := ∅ } := by
  have whole : catalog.upTo (catalog.tables.toList.map (·.1)) =
      { catalog.durable with indexes := ∅ } := by
    have constraints : catalog.constraintsOf.within (catalog.tables.toList.map (·.1)) =
        catalog.constraintsOf := NameMap.within_of_covered fun declared =>
      let ⟨table, stored, _⟩ := filed.constraints declared
      NameMap.mem_keys_iff.mpr ⟨table, stored⟩
    rw [upTo, NameMap.within_keys, constraints]
    rfl
  have none : catalog.upTo [] = .empty := by
    rw [upTo, NameMap.within_nil, NameMap.within_nil]
    rfl
  let image : String × Table -> Bytes := fun (key, table) =>
    encodeTable catalog.requiredVersion table ((catalog.constraintsOf[key]?).getD .empty)
  have read := Reads.fold (decodeTableInto catalog.requiredVersion) image catalog.tables.toList
    (fun before => catalog.upTo (before.map (·.1))) (by
      rintro before ⟨key, table⟩ after split
      exact reads_tableInto filed storable split)
  have wide := Reads.length_flatMap catalog.tables.toList image
    fun entry _ => eight_le_encodeTable entry.2 _
  rw [whole, map_nil, none, Std.ExtTreeMap.length_toList] at read
  rw [Std.ExtTreeMap.length_toList] at wide
  exact Reads.count storable.tableCount wide read

theorem reads_indexes : Reads (do
        let indexCount <- Cursor.count .corrupt 4
        Cursor.fold (decodeIndexInto catalog.requiredVersion) indexCount
          { catalog.durable with indexes := ∅ })
      (putLen catalog.indexes.size ++
        catalog.indexList.flatMap (encodeIndex catalog.requiredVersion)) catalog.durable := by
  have scanned := scanned_requiredVersion catalog
  let image : String × Index -> Bytes := fun entry => encodeIndex catalog.requiredVersion entry.2
  let state : List (String × Index) -> Catalog := fun before =>
    { catalog.durable with indexes := catalog.indexes.within (before.map Prod.fst) }
  have read := Reads.fold (decodeIndexInto catalog.requiredVersion) image
    catalog.indexes.toList state (by
      rintro before ⟨key, index⟩ after split
      obtain ⟨stored, -⟩ := NameMap.not_mem_of_split split
      obtain ⟨named, spelled, -⟩ := filed.indexes stored
      have one := (reads_index (storable.indexes stored) (scanned.index stored) spelled).map
        (f := fun index => { catalog.durable with
          indexes := (catalog.indexes.within (before.map Prod.fst)).insert (lower index.name)
            index })
      rw [<- named, <- NameMap.within_concat stored] at one
      simp only [state, map_append]
      exact one)
  have wide := Reads.length_flatMap catalog.indexes.toList image
    fun entry _ => four_le_encodeIndex entry.2
  simp only [state, NameMap.within_keys, map_nil, NameMap.within_nil,
    Std.ExtTreeMap.length_toList] at read wide
  rw [indexList, flatMap_map]
  exact Reads.count storable.indexCount wide read

theorem decode_encode :
    decode catalog.encode = .ok catalog.durable := by
  have scanned := scanned_requiredVersion catalog
  have supported : ¬(catalog.requiredVersion < catalogVersionExact ∨
      catalogVersionWithoutRowid < catalog.requiredVersion) := by
    have low := scanned.low
    have high := scanned.high
    omega
  have small : catalog.requiredVersion < 2 ^ 32 :=
    Nat.lt_of_le_of_lt scanned.high (by decide)
  have read : Reads decodeVersioned catalog.encode catalog.durable := by
    refine Reads.cast ((Reads.take Error.corrupt catalogMagic).bind <|
      (Reads.u32 Error.corrupt small).bind <| .passes supported <|
      (reads_tables filed storable).bind <| reads_indexes filed storable) ?_
    simp [encode]
  obtain ⟨counts, ran⟩ := read [] [] []
  have magic : catalogMagic <+: catalog.encode := by
    exact prefix_append _ _
  rw [decode, decodeFrom, if_pos magic]
  simp only [nil_append, append_nil] at ran
  exact congrArg Prod.fst ran

end

end Catalog

/-! ## What is read can be written -/

section Yielded

open Catalog

variable {version : Nat}

theorem yields_string : Yields Cursor.string Short := by
  refine Yields.u32.bind fun length small => (Yields.take Error.corrupt length).bind
    fun bytes same => ?_
  cases decoded : fromUtf8 bytes with
  | some text =>
    refine .pure ?_
    rw [Short, length_of_fromUtf8 decoded, same]
    exact small
  | none => exact .fail _

theorem yields_optionString : Yields Cursor.optionString fun text => ∀ value ∈ text, Short value := by
  refine .after fun present => ?_
  split_ifs
  · exact .pure nofun
  · refine yields_string.bind fun text short => .pure ?_
    rintro _ ⟨⟩
    exact short
  · exact .fail _

theorem yields_strings : Yields Cursor.strings ShortList := .counted yields_string

theorem yields_since {α : Type} {first : Nat} {read : Reader Error α} {absent : α}
    {property : α -> Prop} (here : Yields read property) (missing : property absent) :
    Yields (since first version read absent) property := by
  unfold since
  split
  · exact here
  · exact .pure missing

theorem yields_type (tag : UInt8) :
    Yields (decodeType version tag) fun ty => ∀ dim ∈ ty.vectorDim, dim < 2 ^ 32 := by
  unfold decodeType
  split_ifs <;> first
    | exact .pure (by rintro _ ⟨⟩)
    | exact .fail _
    | exact Yields.u32.bind fun dim small => .pure (by simpa [DataType.vectorDim] using small)

theorem yields_column : Yields (decodeColumn version) Column.Storable := by
  refine yields_string.bind fun name short => .after fun tag => (yields_type _).bind
    fun ty dim => .after fun notNull => (yields_since yields_optionString (by simp)).bind
    fun default texts => .after fun collation => .pure ⟨short, texts, dim⟩

theorem yields_foreignKey : Yields decodeForeignKey ForeignKey.Storable := by
  refine yields_strings.bind fun columns short => yields_string.bind fun table name =>
    yields_strings.bind fun referenced others => yields_optionString.bind
    fun onDelete first => yields_optionString.bind fun onUpdate second =>
    .pure ⟨short, name, others, first, second⟩

theorem yields_unique : Yields decodeUnique fun group =>
    (∀ text ∈ group.name, Short text) ∧ ShortList group.columns := by
  exact yields_optionString.bind fun name short => yields_strings.bind fun columns all =>
    .pure ⟨short, all⟩

theorem yields_constraints : Yields decodeConstraints TableConstraints.Storable := by
  exact (Yields.counted yields_unique).bind fun unique groups =>
    (Yields.counted yields_string).bind fun checks texts =>
    (Yields.counted yields_foreignKey).bind fun foreignKeys references =>
    .pure ⟨groups.1, groups.2, texts, references.1, references.2⟩

theorem storable_noConstraints : TableConstraints.empty.Storable :=
  ⟨by decide, nofun, ⟨by decide, nofun⟩, by decide, nofun⟩

theorem yields_table : Yields (decodeTable version) fun (table, constraints) =>
    table.Storable ∧ constraints.Storable := by
  exact yields_string.bind fun name short => .after fun strict => .after fun withoutRowid =>
    (yields_since yields_strings ⟨by decide, by simp⟩).bind fun primaryKey key =>
    (Yields.counted yields_column).bind fun columns each =>
    (yields_since yields_constraints storable_noConstraints).bind fun constraints declared =>
    .pure ⟨⟨short, key, each.1, each.2⟩, declared⟩

theorem yields_columnNames : Yields (columnNames version) ShortList := by
  unfold columnNames
  split
  · exact yields_strings
  · refine yields_string.bind fun name short => .pure ⟨by simp, ?_⟩
    intro text member
    rwa [mem_singleton.mp member]

theorem yields_index : Yields (decodeIndex version) Index.Storable := by
  refine yields_string.bind fun name short => yields_string.bind fun table onTable =>
    yields_columnNames.bind fun columns named => .after fun kind => .after fun unique => ?_
  split
  · exact .fail _
  · refine .after fun collations => .after fun metric =>
      .pure ⟨short, short_lower onTable, by simpa using named.1, ?_⟩
    intro text member
    obtain ⟨column, listed, rfl⟩ := mem_map.mp member
    exact short_lower (named.2 column listed)

/-- What the tables read so far keep. -/
structure Gathered (count : Nat) (catalog : Catalog) : Prop where
  size : catalog.tables.size ≤ count
  tables : ∀ {key : String} {table : Table}, catalog.tables[key]? = some table -> table.Storable
  constraints : ∀ {key : String} {constraints : TableConstraints},
    catalog.constraintsOf[key]? = some constraints ->
      constraints.isEmpty = false ∧ constraints.Storable
  indexes : catalog.indexes = ∅

theorem yields_tableInto {count : Nat} {catalog : Catalog} (gathered : Gathered count catalog) :
    Yields (decodeTableInto version catalog) (Gathered (count + 1)) := by
  refine yields_table.bind fun (table, constraints) ⟨storable, declared⟩ => .ofExcept ?_
  intro next created
  have created : catalog.createTableWith table constraints = .ok next := by
    cases made : catalog.createTableWith table constraints with
    | error error =>
      rw [made] at created
      cases created
    | ok after =>
      rw [made] at created
      cases created
      rfl
  obtain ⟨-, rfl⟩ := Catalog.createTableWith_eq_ok created
  constructor
  case size =>
    have grown := Std.ExtTreeMap.size_insert_le (t := catalog.tables) (k := lower table.name)
      (v := table)
    have before := gathered.size
    simp only
    omega
  case tables =>
    intro key stored found
    rw [NameMap.getElem?_insert] at found
    split at found
    · cases found
      exact storable
    · exact gathered.tables found
  case constraints =>
    intro key stored found
    by_cases empty : constraints.isEmpty = true
    · rw [if_pos empty] at found
      exact gathered.constraints found
    · rw [if_neg empty, NameMap.getElem?_insert] at found
      split at found
      · cases found
        exact ⟨by simpa using empty, declared⟩
      · exact gathered.constraints found
  case indexes => exact gathered.indexes

theorem yields_tables : Yields (decodeTables version) fun catalog =>
    ∃ count < 2 ^ 32, Gathered count catalog := by
  refine (Yields.count 8).bind fun count small => ?_
  have empty : Gathered 0 .empty := ⟨by simp [Catalog.empty], by simp [Catalog.empty],
    by simp [Catalog.empty], rfl⟩
  refine (Yields.fold Gathered (fun _ _ => yields_tableInto) count empty).mono ?_
  intro catalog gathered
  exact ⟨count, small, by simpa using gathered⟩

/-- What the index declarations read over some tables keep. -/
structure Declared (tables : Catalog) (count : Nat) (catalog : Catalog) : Prop where
  size : catalog.indexes.size ≤ count
  same : catalog.tables = tables.tables ∧ catalog.constraintsOf = tables.constraintsOf
  indexes : ∀ {key : String} {index : Index}, catalog.indexes[key]? = some index -> index.Storable

theorem yields_indexInto {tables catalog : Catalog} {count : Nat}
    (declared : Declared tables count catalog) :
    Yields (decodeIndexInto version catalog) (Declared tables (count + 1)) := by
  refine yields_index.bind fun index storable => .pure ⟨?_, declared.same, ?_⟩
  · have grown := Std.ExtTreeMap.size_insert_le (t := catalog.indexes) (k := lower index.name)
      (v := index)
    have before := declared.size
    simp only
    omega
  · intro key stored found
    rw [NameMap.getElem?_insert] at found
    split at found
    · cases found
      exact storable
    · exact declared.indexes found

theorem yields_versioned : Yields decodeVersioned Storable := by
  refine .after fun _ => .after fun version => ?_
  split
  · exact .fail _
  · refine yields_tables.bind fun tables ⟨tableCount, fewTables, gathered⟩ =>
      (Yields.count 4).bind fun count small => ?_
    have none : Declared tables 0 tables :=
      ⟨by simp [gathered.indexes], ⟨rfl, rfl⟩, by simp [gathered.indexes]⟩
    refine (Yields.fold (Declared tables) (fun _ _ => yields_indexInto) count none).mono ?_
    intro catalog declared
    have size := declared.size
    have tableSize := gathered.size
    refine ⟨?_, ?_, ?_, by omega, declared.indexes⟩
    · rw [declared.same.1]
      omega
    · rw [declared.same.1]
      exact gathered.tables
    · rw [declared.same.2]
      exact gathered.constraints

end Yielded

/-! ## Reading stays inside -/

section Bounds

open Catalog Cursor

variable {version : Nat} {α β : Type}

theorem confined_lift (result : Except Error α) : Confined (lift result) := by
  cases result with
  | ok value => exact .pure value
  | error error => exact .raise error

theorem confined_string : Confined string := by
  refine Confined.u32.bind fun length => (Confined.take Error.corrupt length).bind fun bytes => ?_
  split
  · exact .pure _
  · exact .raise _

theorem confined_flag : Confined flag := Confined.u8.bind fun _ => .pure _

theorem confined_optionString : Confined optionString := by
  refine Confined.u8.bind fun present => ?_
  split_ifs
  · exact .pure _
  · exact confined_string.bind fun _ => .pure _
  · exact .raise _

theorem confined_counted {read : Reader Error α} (least : Nat) (each : Confined read) :
    Confined (count .corrupt least >>= many read) :=
  (Confined.count least).bind fun _ => .many each _

theorem confined_strings : Confined strings := confined_counted 4 confined_string

theorem confined_since {first : Nat} {read : Reader Error α} {absent : α} (here : Confined read) :
    Confined (since first version read absent) := by
  unfold since
  split
  · exact here
  · exact .pure _

theorem confined_tagged (fromTag : UInt8 -> Except Error α) :
    Confined (do lift (fromTag (<- u8 .corrupt))) :=
  Confined.u8.bind fun _ => confined_lift _

theorem confined_type (tag : UInt8) : Confined (decodeType version tag) := by
  unfold decodeType
  split_ifs <;> first
    | exact .pure _
    | exact .raise _
    | exact Confined.u32.bind fun _ => .pure _

theorem confined_column : Confined (decodeColumn version) := by
  exact confined_string.bind fun _ => Confined.u8.bind fun _ =>
    (confined_type _).bind fun _ => (confined_since confined_flag).bind fun _ =>
    (confined_since confined_optionString).bind fun _ =>
    (confined_since (confined_tagged Collation.fromTag)).bind fun _ => .pure _

theorem confined_constraints : Confined decodeConstraints := by
  have unique : Confined decodeUnique :=
    confined_optionString.bind fun _ => confined_strings.bind fun _ => .pure _
  have foreignKey : Confined decodeForeignKey :=
    confined_strings.bind fun _ => confined_string.bind fun _ => confined_strings.bind fun _ =>
    confined_optionString.bind fun _ => confined_optionString.bind fun _ => .pure _
  exact (confined_counted 5 unique).bind fun _ => (confined_counted 4 confined_string).bind fun _ =>
    (confined_counted 14 foreignKey).bind fun _ => .pure _

theorem confined_table : Confined (decodeTable version) := by
  exact confined_string.bind fun _ => (confined_since confined_flag).bind fun _ =>
    (confined_since confined_flag).bind fun _ => (confined_since confined_strings).bind fun _ =>
    (confined_counted 5 confined_column).bind fun _ =>
    (confined_since confined_constraints).bind fun _ => .pure _

theorem confined_tables : Confined (decodeTables version) :=
  (Confined.count 8).bind fun _ =>
    .fold (fun _ => confined_table.bind fun _ => confined_lift _) _ _

theorem confined_kind : Confined (decodeKind version) := by
  refine Confined.u8.bind fun _ => ?_
  split_ifs <;> first
    | exact .pure _
    | exact .raise _

theorem confined_index : Confined (decodeIndex version) := by
  have columnNames : Confined (columnNames version) := by
    unfold Catalog.columnNames
    split
    · exact confined_strings
    · exact confined_string.bind fun _ => .pure _
  refine confined_string.bind fun _ => confined_string.bind fun _ => columnNames.bind fun _ =>
    confined_kind.bind fun _ => (confined_since confined_flag).bind fun _ => ?_
  split
  · exact .raise _
  · exact (Confined.many (confined_since (confined_tagged Collation.fromTag)) _).bind fun _ =>
      (confined_since (confined_tagged VectorMetric.fromTag)).bind fun _ => .pure _

theorem confined_versioned : Confined decodeVersioned := by
  refine (Confined.take Error.corrupt _).bind fun _ => Confined.u32.bind fun version => ?_
  split
  · exact .raise _
  · exact confined_tables.bind fun _ => (Confined.count 4).bind fun _ =>
      .fold (fun _ => confined_index.bind fun _ => .pure _) _ _

/-- Reading ends inside the bytes, with a catalog or an error of the format, and each list it
sized by a count fitted the bytes that were left. -/
structure ReadsInside (bytes : Bytes) : Prop where
  bounded : decode bytes ≠ .error .outOfBounds
  inside : Inside (decodeFrom bytes).2

theorem readsInside (bytes : Bytes) : ReadsInside bytes := by
  have start : Inside (Cursor.new bytes) := ⟨Nat.zero_le _, by simp [Cursor.new]⟩
  by_cases magic : catalogMagic <+: bytes
  · obtain ⟨bounded, inside, -⟩ := confined_versioned _ start
    constructor
    · rwa [decode, decodeFrom, if_pos magic]
    · rwa [decodeFrom, if_pos magic]
  · have older : Confined (do return (<- decodeTables 1).grandfather : Reader Error Catalog) :=
      confined_tables.bind fun _ => .pure _
    obtain ⟨bounded, inside, -⟩ := older _ start
    constructor
    · rwa [decode, decodeFrom, if_neg magic]
    · rwa [decodeFrom, if_neg magic]

end Bounds

/-! ## Every run -/

/-- The stored form of a catalog loses nothing. -/
structure LosesNothing (catalog : Catalog) : Prop where
  /-- The version is written after the magic, and is one the reader has. -/
  version : ∃ version, Catalog.catalogMagic ++ leBytes 4 version <+: catalog.encode ∧
    2 ≤ version ∧ version ≤ 9 ∧
    (∀ {key : String} {table : Table}, catalog.tables[key]? = some table -> table.Fits version) ∧
    (∀ {key : String} {index : Index}, catalog.indexes[key]? = some index -> index.Fits version)
  roundTrip : Catalog.decode catalog.encode = .ok catalog.durable
  again : ∀ decoded, Catalog.decode catalog.encode = .ok decoded -> decoded.encode = catalog.encode

theorem Storable.losesNothing {catalog : Catalog} (storable : Storable catalog)
    (filed : Filed catalog) : LosesNothing catalog := by
  have roundTrip := Catalog.decode_encode filed storable
  have scanned := Catalog.scanned_requiredVersion catalog
  refine ⟨⟨catalog.requiredVersion, ?_, scanned.low, scanned.high, scanned.table, scanned.index⟩,
    roundTrip, ?_⟩
  · simp only [Catalog.encode, append_assoc]
    exact prefix_append _ _
  · intro decoded read
    rw [roundTrip] at read
    cases read
    rfl

theorem LosesNothing.storable {catalog : Catalog} (kept : LosesNothing catalog) :
    Storable catalog := by
  have magic : Catalog.catalogMagic <+: catalog.encode := by
    exact prefix_append _ _
  have read := kept.roundTrip
  rw [Catalog.decode, Catalog.decodeFrom, if_pos magic] at read
  have storable : Storable catalog.durable := yields_versioned _ _ _ (Prod.ext read rfl)
  exact ⟨storable.tableCount, storable.tables, storable.constraints, storable.indexCount,
    storable.indexes⟩

/-- The catalog after some calls, each on what the ones before it left. -/
def performAll (texts : CheckTexts) (calls : List Call) : Catalog :=
  calls.foldl (fun catalog call => (call.perform texts catalog).2) .empty

theorem step_of_issued {texts : CheckTexts} {catalog : Catalog} {call : Call}
    (issued : Issued catalog call) : (catalogSystem texts fun _ _ => True).Step catalog call
      (call.perform texts catalog).2 :=
  ⟨issued, trivial, rfl⟩

/-- `CREATE TABLE t (a INTEGER)`. -/
def plainTable : Table :=
  { name := "t", columns := [Column.new "a" .integer], strict := false, withoutRowid := false
    primaryKey := [], temporary := false }

/-- `CREATE UNIQUE INDEX u ON t (a)`, as planned. -/
def uniqueIndexPlan : CreateIndexPlan :=
  { name := "u", table := "t", columns := [0], kind := .btree, unique := true
    collations := [.binary], metric := .cosine }

/-- The index it declares. -/
def uniqueIndexOnA : Index :=
  { name := "u", table := "t", columns := ["a"], kind := .btree, unique := true
    collations := [.binary], metric := .cosine }

/-- A `UNIQUE` index made and dropped again. -/
def madeAndDropped : List Call :=
  [.createTableWith plainTable .empty, .createUniqueConstraint "t" ⟨some "u", ["a"]⟩,
    .createIndex uniqueIndexOnA, .dropUniqueConstraint "u", .dropIndex "u"]

theorem made_runs : (catalogSystem plainTexts fun _ _ => True).Runs (madeAndDropped.take 3)
    (performAll plainTexts (madeAndDropped.take 3)) := by
  have created : Issued .empty (.createTableWith plainTable .empty) :=
    have planned : planCreateTable ⟨"t", [⟨"a", .integer, []⟩], [], false, false, false⟩ =
        .ok (plainTable, .empty) := by decide +kernel
    .createTable planned rfl
  have constrained : Issued (performAll plainTexts (madeAndDropped.take 1))
      (.createUniqueConstraint "t" ⟨some "u", ["a"]⟩) :=
    @Issued.createUniqueConstraint _ "u" _ plainTable _ (by decide +kernel) rfl
  have indexed : Issued (performAll plainTexts (madeAndDropped.take 2))
      (.createIndex uniqueIndexOnA) := by
    have issued := @Issued.createIndex (performAll plainTexts (madeAndDropped.take 2))
      uniqueIndexPlan plainTable plainTable.columns
      (by decide +kernel) rfl (by decide +kernel) (by decide +kernel)
    exact cast (congrArg _ (by decide +kernel)) issued
  exact ⟨.empty, rfl, .step (.step (.step .refl (step_of_issued created))
    (step_of_issued constrained)) (step_of_issued indexed)⟩

end InlaySql.Sql
