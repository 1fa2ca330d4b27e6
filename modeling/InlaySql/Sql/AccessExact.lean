import InlaySql.Sql.AccessPath

/-!
# The access path never changes an answer

Over rows that agree with their table's indexes, every row a filter admits is among
the candidates of the path the engine picks, and the candidates come in row-id order;
so filtering them is filtering a scan.
-/

namespace InlaySql.Sql

open List Option Lib

/-! ## Rows that agree with their indexes -/

/-- What `coerce` lets into a column: a value of the declared storage class, or `NULL`. -/
def Conforms : DataType -> Value -> Prop
  | _, .null => True
  | .integer, value => ∃ number, value = .integer number
  | .real, value => ∃ number, value = .real number
  | .text, value => ∃ text, value = .text text
  | .blob, value => ∃ bytes, value = .blob bytes
  | _, _ => True

/-- A row id as the `i64` its column holds. -/
def asI64 (id : RowId) : Int := if id < 2 ^ 63 then id else id - 2 ^ 64

/-- The entry a row contributes to an index. -/
def indexEntry (table : Table) (index : Index) (stored : RowId × Row) : Except Error Bytes := do
  entryKey index.name (<- indexValues table index stored.2) index.collations stored.1

/-- The rows of a table fit their columns, and each of its B-tree indexes has exactly one
entry for each of them. -/
structure Indexed (storage : Storage) (catalog : Catalog) (table : Table) : Prop where
  ids : ∀ stored ∈ storage.rows table.name, stored.1 < 2 ^ 64
  fits : ∀ stored ∈ storage.rows table.name, ∀ cell ∈ stored.2, cell.Fits
  conforms : ∀ stored ∈ storage.rows table.name, ∀ (ordinal : Nat) (column : Column) (cell : Value),
    table.columns[ordinal]? = some column -> stored.2[ordinal]? = some cell ->
      Conforms column.ty cell
  aliased : ∀ ordinal, table.rowidAlias = some ordinal -> ∀ stored ∈ storage.rows table.name,
    ∀ cell, stored.2[ordinal]? = some cell -> cell = .null ∨ cell = .integer (asI64 stored.1)
  columns : ∀ index ∈ catalog.indexesFor table.name, index.kind = .btree ->
    ∃ ordinals, indexOrdinals table index = .ok ordinals
  present : ∀ index ∈ catalog.indexesFor table.name, index.kind = .btree ->
    ∀ stored ∈ storage.rows table.name,
      ∃ key ∈ storage.entries, indexEntry table index stored = .ok key
  owned : ∀ index ∈ catalog.indexesFor table.name, index.kind = .btree ->
    ∀ key ∈ storage.entries, indexPrefix index.name <+: key ->
      ∃ stored ∈ storage.rows table.name, indexEntry table index stored = .ok key

/-! ## Ranges -/

theorem upperBound_eq_some {start bound : Bytes} (found : upperBound start = some bound) :
    ∃ front last rest, start = front ++ last :: rest ∧ last < last + 1 ∧
      (∀ byte ∈ rest, byte = 255) ∧ bound = front ++ [last + 1] := by
  unfold upperBound at found
  split at found
  · cases found
  · rename_i last front shape
    obtain rfl := Option.some.inj found
    have whole := @List.takeWhile_append_dropWhile _ (· == (255 : UInt8)) start.reverse
    rw [shape] at whole
    have ne : (last == 255) = false := by
      have head := head?_dropWhile_not (· == (255 : UInt8)) start.reverse
      rw [shape] at head
      simpa using head
    refine ⟨front.reverse, last, (start.reverse.takeWhile (· == 255)).reverse, ?_, ?_, ?_, by simp⟩
    · have reversed := congrArg List.reverse whole
      simpa using reversed.symm
    · have small : last ≠ 255 := by simpa using ne
      have bounded := last.toNat_lt
      have apart : last.toNat ≠ 255 := fun same => small (UInt8.toNat_inj.mp (by simpa using same))
      rw [UInt8.lt_iff_toNat_lt, UInt8.toNat_add]
      simp
      omega
    · intro byte member
      simpa using mem_takeWhile_imp (mem_reverse.mp member)

namespace KeyRange

variable {key : Bytes}

theorem contains_iff {range : KeyRange} :
    range.contains key = true ↔ range.start ≤ key ∧ ∀ stop, range.stop = some stop → key < stop := by
  rw [contains, Bool.and_eq_true, decide_eq_true_eq]
  cases range.stop <;> simp

theorem lt_upperBound {start bound : Bytes} (found : upperBound start = some bound)
    (within : start <+: key ∨ Below key start) : key < bound := by
  obtain ⟨front, last, rest, rfl, raised, -, rfl⟩ := upperBound_eq_some found
  exact lt_of_raised raised within

theorem contains_ofPrefix {start : Bytes} (within : start <+: key) :
    (ofPrefix start).contains key = true :=
  contains_iff.mpr ⟨le_of_isPrefix within, fun _ found => lt_upperBound found (.inl within)⟩

/-- A range of keys with one start holds no other keys, unless the start is all bytes
that cannot be raised. -/
theorem isPrefix_of_contains {start : Bytes} {byte : UInt8} (member : byte ∈ start)
    (small : byte ≠ 255) (contains : (ofPrefix start).contains key = true) : start <+: key := by
  obtain ⟨low, high⟩ := contains_iff.mp contains
  cases found : upperBound start with
  | none =>
    exfalso
    unfold upperBound at found
    split at found
    · rename_i empty
      have all := dropWhile_eq_nil_iff.mp empty byte (mem_reverse.mpr member)
      exact small (by simpa using all)
    · cases found
  | some bound =>
    have below := high bound found
    obtain ⟨front, last, rest, rfl, -, greatest, rfl⟩ := upperBound_eq_some found
    exact isPrefix_of_raised greatest low below

end KeyRange

/-! ## Encodings of the bounded columns -/

section Probe

variable {env : Env} {table : Table} {index : Index} {row : Row}

theorem totalOrder_ok {value : F64} (number : value.isNan = false) :
    ∃ code, totalOrder value = .ok code := by
  rw [totalOrder, number]
  exact ⟨_, rfl⟩

variable {value : Value} {term : Term} {ordinal position : Nat} {collations : List Collation}
  {values : List Value} {bytes : Bytes} {terms : List Term} {ordinals : List Nat}
  {leading : List Value}

theorem encodeValue_of_indexable {ty : DataType} (fits : value.Fits)
    (indexable : indexableProbe ty value = true) (collation : Collation) :
    ∃ bytes, encodeValue collation value = .ok bytes := by
  have real : ∀ number : F64, number.isNan = false ->
      ∃ bytes, encodeValue collation (.real number) = .ok bytes := by
    intro number isNumber
    obtain ⟨code, isCode⟩ := totalOrder_ok isNumber
    exact ⟨_, by rw [encodeValue, isCode, ok_bind]; rfl⟩
  cases value with
  | null | vector => cases ty <;> cases indexable
  | integer number =>
    obtain ⟨code, isCode⟩ := totalOrder_ok (F64.signed_ofInt fits.natAbs_le).1
    exact ⟨_, by rw [encodeValue, isCode, ok_bind]; rfl⟩
  | real number =>
    apply real
    cases ty <;> first | cases indexable | simpa [indexableProbe] using indexable
  | text text => exact ⟨_, rfl⟩
  | blob bytes => exact ⟨_, rfl⟩

theorem converted_of_indexable (env : Env) {ty : DataType} {cell : Value}
    (conforms : Conforms ty cell) (notNull : cell ≠ .null)
    (indexable : indexableProbe ty value = true) :
    converted env (combineAffinity (columnAffinity ty) none) cell = cell ∧
      converted env (combineAffinity (columnAffinity ty) none) value = value := by
  cases ty with
  | integer =>
    obtain ⟨number, rfl⟩ : ∃ number, cell = .integer number := by
      cases cell <;> first | exact absurd rfl notNull | exact conforms
    cases value <;> first | exact ⟨rfl, rfl⟩ | cases indexable
  | real =>
    obtain ⟨number, rfl⟩ : ∃ number, cell = .real number := by
      cases cell <;> first | exact absurd rfl notNull | exact conforms
    cases value <;> first | exact ⟨rfl, rfl⟩ | cases indexable
  | text =>
    obtain ⟨text, rfl⟩ : ∃ text, cell = .text text := by
      cases cell <;> first | exact absurd rfl notNull | exact conforms
    cases value <;> first | exact ⟨rfl, rfl⟩ | cases indexable
  | blob =>
    obtain ⟨bytes, rfl⟩ : ∃ bytes, cell = .blob bytes := by
      cases cell <;> first | exact absurd rfl notNull | exact conforms
    exact ⟨rfl, by cases value <;> rfl⟩
  | numeric | vector | quantizedVector | any => cases value <;> cases indexable

theorem usableTerm_encoded {cellBytes : Bytes} (rowFits : ∀ cell ∈ row, cell.Fits)
    (conforms : ∀ (column : Column) (cell : Value), table.columns[ordinal]? = some column ->
      row[ordinal]? = some cell -> Conforms column.ty cell) (holds : term.Holds env table row)
    (fits : term.value.Fits) (usable : usableTerm table index term ordinal position = true)
    (isCell : encodeValue (index.collation position) (row.cell ordinal) = .ok cellBytes) :
    ∃ valueBytes ordering, encodeValue (index.collation position) term.value = .ok valueBytes ∧
      Encoded ordering cellBytes valueBytes ∧ verdict term.op ordering = true := by
  simp only [usableTerm, Bool.and_eq_true, beq_iff_eq, Option.any_eq_true] at usable
  obtain ⟨⟨rfl, column, isColumn, indexable⟩, isCollation⟩ := usable
  obtain ⟨cell, ordering, found, notNull, compared, decided⟩ := holds
  obtain ⟨valueBytes, isValue⟩ := encodeValue_of_indexable fits indexable (index.collation position)
  have affinity : table.affinityAt term.ordinal = columnAffinity column.ty := by
    rw [Table.affinityAt, isColumn]
    rfl
  obtain ⟨sameCell, sameValue⟩ := converted_of_indexable env
    (conforms column cell isColumn found) notNull indexable
  rw [affinity] at compared
  simp only [sameCell, sameValue, isCollation] at compared
  rw [Row.cell, found, getD_some] at isCell
  have cellFits := rowFits cell (mem_of_getElem? found)
  refine ⟨valueBytes, ordering, isValue, ?_, decided⟩
  rcases compared with compared | compared
  · exact encodeValue_encoded cellFits fits isCell isValue compared
  · have swapped := (encodeValue_encoded fits cellFits isValue isCell compared).swap
    rwa [Ordering.swap_swap] at swapped

theorem encodeValues_cons
    (encoded : encodeValues collations position (value :: values) = .ok bytes) :
    ∃ first rest, encodeValue (Collation.atPosition collations position) value = .ok first ∧
      encodeValues collations (position + 1) values = .ok rest ∧ bytes = first ++ rest := by
  obtain ⟨first, isFirst, encoded⟩ := bind_eq_ok encoded
  obtain ⟨rest, isRest, encoded⟩ := bind_eq_ok encoded
  exact ⟨first, rest, isFirst, isRest, (Except.ok.inj encoded).symm⟩

theorem encodeValues_of_cons {first rest : Bytes}
    (isFirst : encodeValue (Collation.atPosition collations position) value = .ok first)
    (isRest : encodeValues collations (position + 1) values = .ok rest) :
    encodeValues collations position (value :: values) = .ok (first ++ rest) := by
  rw [encodeValues, isFirst, ok_bind, isRest, ok_bind]
  rfl

theorem usableTerm_of_find (found : (terms.find? fun term => term.op == .eq &&
      usableTerm table index term ordinal position) = some term) :
    term ∈ terms ∧ term.op = .eq ∧ usableTerm table index term ordinal position = true := by
  have both := find?_some found
  rw [Bool.and_eq_true, beq_iff_eq] at both
  exact ⟨mem_of_find?_eq_some found, both⟩

theorem indexable_of_usable (usable : usableTerm table index term ordinal position = true) :
    ∃ ty, indexableProbe ty term.value = true := by
  simp only [usableTerm, Bool.and_eq_true, Option.any_eq_true] at usable
  obtain ⟨⟨-, column, -, indexable⟩, -⟩ := usable
  exact ⟨column.ty, indexable⟩

theorem encodeValues_leadingEqualities
    (fits : ∀ term ∈ terms, term.value.Fits) (ordinals : List Nat) (position : Nat) :
    ∃ bytes, encodeValues index.collations position
      (leadingEqualities table index terms position ordinals) = .ok bytes := by
  induction ordinals generalizing position with
  | nil => exact ⟨[], rfl⟩
  | cons ordinal ordinals ih =>
    unfold leadingEqualities
    split
    · rename_i term found
      obtain ⟨member, -, usable⟩ := usableTerm_of_find found
      obtain ⟨ty, indexable⟩ := indexable_of_usable usable
      obtain ⟨first, isFirst⟩ := encodeValue_of_indexable (fits term member) indexable
        (index.collation position)
      obtain ⟨rest, isRest⟩ := ih (position + 1)
      exact ⟨first ++ rest, encodeValues_of_cons isFirst isRest⟩
    · exact ⟨[], rfl⟩

/-- Where the terms hold, the encodings of a row's columns start with those of the
leading equalities. -/
theorem leadingEqualities_spec (rowFits : ∀ cell ∈ row, cell.Fits)
    (conforms : ∀ (ordinal : Nat) (column : Column) (cell : Value),
      table.columns[ordinal]? = some column -> row[ordinal]? = some cell -> Conforms column.ty cell)
    (holds : ∀ term ∈ terms, term.Holds env table row ∧ term.value.Fits)
    (encoded : encodeValues index.collations position (ordinals.map row.cell) = .ok bytes) :
    ∃ start rest,
      encodeValues index.collations position (leadingEqualities table index terms position ordinals) =
        .ok start ∧
      encodeValues index.collations
        (position + (leadingEqualities table index terms position ordinals).length)
        ((ordinals.drop (leadingEqualities table index terms position ordinals).length).map row.cell) =
          .ok rest ∧
      bytes = start ++ rest := by
  induction ordinals generalizing position bytes with
  | nil => exact ⟨[], bytes, rfl, encoded, rfl⟩
  | cons ordinal ordinals ih =>
    obtain ⟨first, tail, isFirst, isTail, rfl⟩ := encodeValues_cons encoded
    unfold leadingEqualities
    split
    · rename_i term found
      obtain ⟨member, isEq, usable⟩ := usableTerm_of_find found
      obtain ⟨termHolds, termFits⟩ := holds term member
      obtain ⟨valueBytes, ordering, isValue, ordered, decided⟩ := usableTerm_encoded rowFits
        (conforms ordinal) termHolds termFits usable isFirst
      rw [isEq] at decided
      obtain rfl : ordering = .eq := by
        cases ordering <;> first | rfl | cases decided
      obtain rfl : first = valueBytes := ordered
      obtain ⟨start, rest, isStart, isRest, rfl⟩ := ih isTail
      refine ⟨first ++ start, rest, encodeValues_of_cons isValue isStart, ?_,
        (append_assoc _ _ _).symm⟩
      simpa [Nat.add_assoc, Nat.add_comm 1] using isRest
    · exact ⟨[], first ++ tail, rfl, encoded, rfl⟩

/-! ## Narrowing -/

namespace KeyRange

variable {range : KeyRange} {name : String} {leading : List Value} {collations : List Collation}
  {value : Value} {start valueBytes : Bytes}

section

variable (isStart : probePrefix name leading collations = .ok start)
    (isValue : encodeValue (Collation.atPosition collations leading.length) value = .ok valueBytes)

include isStart isValue

theorem withLower_spec : ∃ narrowed, range.withLower name leading collations value = .ok narrowed ∧
      ∀ key, narrowed.contains key = true ↔
        range.contains key = true ∧ start ++ valueBytes ≤ key := by
  refine ⟨_, by rw [withLower, isStart, ok_bind, isValue, ok_bind]; rfl, ?_⟩
  intro key
  simp only [contains_iff]
  split
  · rename_i raised
    constructor
    · rintro ⟨low, high⟩
      exact ⟨⟨raised.le.trans low, high⟩, low⟩
    · rintro ⟨⟨-, high⟩, low⟩
      exact ⟨low, high⟩
  · rename_i kept
    constructor
    · rintro ⟨low, high⟩
      exact ⟨⟨low, high⟩, (not_lt.mp kept).trans low⟩
    · rintro ⟨both, -⟩
      exact both

theorem withUpper_spec : ∃ narrowed, range.withUpper name leading collations value = .ok narrowed ∧
      ∀ key, narrowed.contains key = true ↔ range.contains key = true ∧
        ∀ bound, upperBound (start ++ valueBytes) = some bound -> key < bound := by
  refine ⟨_, by rw [withUpper, isStart, ok_bind, isValue, ok_bind]; rfl, ?_⟩
  intro key
  simp only [contains_iff, and_assoc]
  refine and_congr_right fun _ => ?_
  cases range.stop with
  | none => simp
  | some left =>
    cases upperBound (start ++ valueBytes) with
    | none => simp
    | some right =>
      simp only [Option.some.injEq, forall_eq']
      split
      · rename_i lowered
        exact ⟨fun less => ⟨less.trans lowered, less⟩, And.right⟩
      · rename_i kept
        exact ⟨fun less => ⟨less, less.trans_le (not_lt.mp kept)⟩, And.left⟩

end

end KeyRange

theorem IndexRange.narrow_spec (probe : IndexRange) {start valueBytes : Bytes}
    (isStart : probePrefix index.name leading index.collations = .ok start)
    (isValue : encodeValue (index.collation leading.length) term.value = .ok valueBytes) :
    ∃ narrowed, IndexRange.narrow index leading probe term = .ok narrowed ∧
      (∀ key, narrowed.range.contains key = true -> probe.range.contains key = true) ∧
      ∀ (cellBytes rest : Bytes) (ordering : Ordering), Encoded ordering cellBytes valueBytes ->
        verdict term.op ordering = true ->
        probe.range.contains (start ++ (cellBytes ++ rest)) = true ->
          narrowed.range.contains (start ++ (cellBytes ++ rest)) = true := by
  have within : ∀ {cellBytes rest : Bytes}, cellBytes = valueBytes ->
      start ++ valueBytes <+: start ++ (cellBytes ++ rest) := by
    rintro cellBytes rest rfl
    exact ⟨rest, by simp⟩
  have lower : term.op = .gt ∨ term.op = .gtEq ->
      ∀ (cellBytes rest : Bytes) (ordering : Ordering), Encoded ordering cellBytes valueBytes ->
        verdict term.op ordering = true -> start ++ valueBytes ≤ start ++ (cellBytes ++ rest) := by
    intro isOp cellBytes rest ordering ordered decided
    cases ordering with
    | lt => rcases isOp with isOp | isOp <;> rw [isOp] at decided <;> cases decided
    | eq => exact le_of_isPrefix (within ordered)
    | gt =>
      rcases ordered with same | below
      · exact le_of_isPrefix (within same)
      · have longer : Below valueBytes (cellBytes ++ rest) := by
          simpa using below.append_right [] rest
        exact (longer.append_left start).lt.le
  have upper : term.op = .lt ∨ term.op = .ltEq ->
      ∀ (cellBytes rest : Bytes) (ordering : Ordering), Encoded ordering cellBytes valueBytes ->
        verdict term.op ordering = true -> ∀ bound, upperBound (start ++ valueBytes) = some bound ->
          start ++ (cellBytes ++ rest) < bound := by
    intro isOp cellBytes rest ordering ordered decided bound found
    cases ordering with
    | gt => rcases isOp with isOp | isOp <;> rw [isOp] at decided <;> cases decided
    | eq => exact KeyRange.lt_upperBound found (.inl (within ordered))
    | lt =>
      rcases ordered with same | below
      · exact KeyRange.lt_upperBound found (.inl (within same))
      · have longer : Below (cellBytes ++ rest) valueBytes := by
          simpa using below.append_right rest []
        exact KeyRange.lt_upperBound found (.inr (longer.append_left start))
  obtain ⟨lowered, isLowered, lowerKeys⟩ :=
    @KeyRange.withLower_spec probe.range _ _ _ _ _ _ isStart isValue
  obtain ⟨raised, isRaised, upperKeys⟩ :=
    @KeyRange.withUpper_spec probe.range _ _ _ _ _ _ isStart isValue
  unfold IndexRange.narrow
  split
  case h_1 _ isOp | h_2 _ isOp =>
    refine ⟨_, by rw [isLowered, ok_bind]; rfl, fun key inside => ((lowerKeys key).mp inside).1, ?_⟩
    intro cellBytes rest ordering ordered decided inside
    exact (lowerKeys _).mpr ⟨inside, lower (by simp [isOp]) cellBytes rest ordering ordered decided⟩
  case h_3 _ isOp | h_4 _ isOp =>
    refine ⟨_, by rw [isRaised, ok_bind]; rfl, fun key inside => ((upperKeys key).mp inside).1, ?_⟩
    intro cellBytes rest ordering ordered decided inside
    exact (upperKeys _).mpr ⟨inside, upper (by simp [isOp]) cellBytes rest ordering ordered decided⟩
  case h_5 => exact ⟨probe, rfl, fun _ inside => inside, fun _ _ _ _ _ inside => inside⟩

/-- The bytes of a cell stand where a term wants them. -/
def Bounded (index : Index) (position : Nat) (cellBytes : Bytes) (term : Term) : Prop :=
  ∃ valueBytes ordering, encodeValue (index.collation position) term.value = .ok valueBytes ∧
    Encoded ordering cellBytes valueBytes ∧ verdict term.op ordering = true

theorem foldlM_narrow_spec {start : Bytes}
    (isStart : probePrefix index.name leading index.collations = .ok start)
    (encoded : ∀ term ∈ terms, ∃ bytes,
      encodeValue (index.collation leading.length) term.value = .ok bytes) (probe : IndexRange) :
    ∃ narrowed, terms.foldlM (IndexRange.narrow index leading) probe = .ok narrowed ∧
      (∀ key, narrowed.range.contains key = true -> probe.range.contains key = true) ∧
      ∀ cellBytes rest, (∀ term ∈ terms, Bounded index leading.length cellBytes term) ->
        probe.range.contains (start ++ (cellBytes ++ rest)) = true ->
          narrowed.range.contains (start ++ (cellBytes ++ rest)) = true := by
  induction terms generalizing probe with
  | nil => exact ⟨probe, rfl, fun _ inside => inside, fun _ _ _ inside => inside⟩
  | cons term terms ih =>
    obtain ⟨valueBytes, isValue⟩ := encoded term mem_cons_self
    obtain ⟨first, isFirst, firstShrinks, firstKeeps⟩ :=
      IndexRange.narrow_spec probe isStart isValue
    obtain ⟨narrowed, isNarrowed, shrinks, keeps⟩ :=
      ih (fun term member => encoded term (mem_cons_of_mem _ member)) first
    refine ⟨narrowed, ?_, fun key inside => firstShrinks key (shrinks key inside), ?_⟩
    · rw [foldlM_cons, isFirst, ok_bind, isNarrowed]
    · intro cellBytes rest bounded inside
      obtain ⟨bytes, ordering, isBytes, ordered, decided⟩ := bounded term mem_cons_self
      obtain rfl : valueBytes = bytes := Except.ok.inj (isValue.symm.trans isBytes)
      exact keeps cellBytes rest (fun term member => bounded term (mem_cons_of_mem _ member))
        (firstKeeps cellBytes rest ordering ordered decided inside)

/-- A range an index is probed with lies inside the index and holds the entry of every
row the terms hold of. -/
structure Covers (table : Table) (index : Index) (terms : List Term) (probe : IndexRange) :
    Prop where
  inside : ∀ key, probe.range.contains key = true -> indexPrefix index.name <+: key
  covered : ∀ (env : Env) (id : RowId) (row : Row) (key : Bytes), (∀ cell ∈ row, cell.Fits) ->
    (∀ (ordinal : Nat) (column : Column) (cell : Value), table.columns[ordinal]? = some column ->
      row[ordinal]? = some cell -> Conforms column.ty cell) ->
    (∀ term ∈ terms, term.Holds env table row ∧ term.value.Fits) ->
    indexEntry table index (id, row) = .ok key -> probe.range.contains key = true

theorem indexPrefix_of_contains {key : Bytes}
    (contains : (KeyRange.ofPrefix (indexPrefix index.name ++ bytes)).contains key = true) :
    indexPrefix index.name <+: key := by
  have whole := @KeyRange.isPrefix_of_contains _ _ 0 (by simp [indexPrefix]) (by decide) contains
  exact (prefix_append _ _).trans whole

theorem indexEntry_eq_ok {id : RowId} {key : Bytes}
    (isOrdinals : indexOrdinals table index = .ok ordinals)
    (isKey : indexEntry table index (id, row) = .ok key) :
    ∃ bytes, encodeValues index.collations 0 (ordinals.map row.cell) = .ok bytes ∧
      key = indexPrefix index.name ++ bytes ++ beBytes 8 id := by
  obtain ⟨values, isValues, isKey⟩ := bind_eq_ok isKey
  rw [indexValues, isOrdinals, ok_bind] at isValues
  obtain rfl := Except.ok.inj isValues
  obtain ⟨start, isStart, isKey⟩ := bind_eq_ok isKey
  obtain ⟨bytes, isBytes, isStart⟩ := bind_eq_ok isStart
  obtain rfl := Except.ok.inj isStart
  exact ⟨bytes, isBytes, (Except.ok.inj isKey).symm⟩

theorem indexProbe_spec (fits : ∀ term ∈ terms, term.value.Fits)
    (isOrdinals : indexOrdinals table index = .ok ordinals) :
    ∃ found, indexProbe table index terms = .ok found ∧
      ∀ probe, found = some probe -> Covers table index terms probe := by
  obtain ⟨bytes, isBytes⟩ := @encodeValues_leadingEqualities table index terms fits ordinals 0
  set leading := leadingEqualities table index terms 0 ordinals with isLeading
  have isStart : probePrefix index.name leading index.collations =
      .ok (indexPrefix index.name ++ bytes) := by
    rw [probePrefix, isBytes, ok_bind]
    rfl
  have isRange : KeyRange.equality index.name leading index.collations =
      .ok (KeyRange.ofPrefix (indexPrefix index.name ++ bytes)) := by
    rw [KeyRange.equality, isStart, ok_bind]
    rfl
  -- The entry of a row starts with the leading equalities; the columns after them follow.
  have front : ∀ {env : Env} {id : RowId} {row : Row} {key : Bytes}, (∀ cell ∈ row, cell.Fits) ->
      (∀ (ordinal : Nat) (column : Column) (cell : Value), table.columns[ordinal]? = some column ->
        row[ordinal]? = some cell -> Conforms column.ty cell) ->
      (∀ term ∈ terms, term.Holds env table row ∧ term.value.Fits) ->
      indexEntry table index (id, row) = .ok key ->
      ∃ rest, encodeValues index.collations leading.length
          ((ordinals.drop leading.length).map row.cell) = .ok rest ∧
        key = indexPrefix index.name ++ bytes ++ (rest ++ beBytes 8 id) := by
    intro env id row key rowFits conforms holds isKey
    obtain ⟨whole, isWhole, rfl⟩ := indexEntry_eq_ok isOrdinals isKey
    obtain ⟨start, rest, isFront, isRest, rfl⟩ :=
      leadingEqualities_spec rowFits conforms holds isWhole
    obtain rfl : bytes = start := Except.ok.inj (isBytes.symm.trans isFront)
    rw [Nat.zero_add] at isRest
    exact ⟨rest, isRest, by simp⟩
  have keys : ∀ {probe : IndexRange}, (∀ key, probe.range.contains key = true ->
      (KeyRange.ofPrefix (indexPrefix index.name ++ bytes)).contains key = true) ->
      ∀ key, probe.range.contains key = true -> indexPrefix index.name <+: key :=
    fun shrinks key inside => indexPrefix_of_contains (shrinks key inside)
  unfold indexProbe
  simp only [isOrdinals, ok_bind, <- isLeading, isRange]
  cases isNext : ordinals[leading.length]? with
  | none =>
    refine ⟨_, rfl, fun probe found => ?_⟩
    split at found
    · cases found
    · obtain rfl := Option.some.inj found
      refine ⟨keys fun _ inside => inside, fun env id row key rowFits conforms holds isKey => ?_⟩
      obtain ⟨rest, -, rfl⟩ := front rowFits conforms holds isKey
      exact KeyRange.contains_ofPrefix (prefix_append _ _)
  | some ordinal =>
    set usable := terms.filter fun term =>
      usableTerm table index term ordinal leading.length with isUsable
    have isMember : ∀ term ∈ usable, term ∈ terms ∧
        usableTerm table index term ordinal leading.length = true := by
      intro term member
      rwa [isUsable, mem_filter] at member
    have encoded : ∀ term ∈ usable, ∃ bytes,
        encodeValue (index.collation leading.length) term.value = .ok bytes := by
      intro term member
      obtain ⟨isTerm, isUsable⟩ := isMember term member
      obtain ⟨ty, indexable⟩ := indexable_of_usable isUsable
      exact encodeValue_of_indexable (fits term isTerm) indexable _
    obtain ⟨narrowed, isNarrowed, shrinks, keeps⟩ := foldlM_narrow_spec isStart encoded
      ⟨leading.length, false, false, KeyRange.ofPrefix (indexPrefix index.name ++ bytes)⟩
    refine ⟨_, by simp only [<- isUsable, isNarrowed, ok_bind]; rfl, fun probe found => ?_⟩
    split at found
    · cases found
    · obtain rfl := Option.some.inj found
      refine ⟨keys shrinks, fun env id row key rowFits conforms holds isKey => ?_⟩
      obtain ⟨rest, isRest, rfl⟩ := front rowFits conforms holds isKey
      have next : ordinals.drop leading.length = ordinal :: ordinals.drop (leading.length + 1) := by
        obtain ⟨inside, isOrdinal⟩ := List.getElem?_eq_some_iff.mp isNext
        rw [drop_eq_getElem_cons inside, isOrdinal]
      rw [next, map_cons] at isRest
      obtain ⟨cellBytes, more, isCell, -, rfl⟩ := encodeValues_cons isRest
      rw [append_assoc cellBytes]
      refine keeps cellBytes (more ++ beBytes 8 id) (fun term member => ?_)
        (KeyRange.contains_ofPrefix (prefix_append _ _))
      obtain ⟨isTerm, isUsable⟩ := isMember term member
      obtain ⟨termHolds, termFits⟩ := holds term isTerm
      exact usableTerm_encoded rowFits (conforms ordinal) termHolds termFits isUsable isCell

end Probe

/-! ## The chosen index -/

section Choice

variable {table : Table} {params : List Value} (paramsFit : ∀ value ∈ params, value.Fits)

theorem resolveOperand_fits {expr : Expr} {value : Value} (planned : expr.Planned table)
    (paramsFit : ∀ value ∈ params, value.Fits)
    (resolved : resolveOperand params expr.withoutCollate = some value) : value.Fits := by
  have planned := planned.withoutCollate
  generalize expr.withoutCollate = bare at planned resolved
  cases bare with
  | literal found =>
    obtain rfl := Option.some.inj resolved
    exact planned
  | param index => exact paramsFit value (mem_of_getElem? resolved)
  | column | binary | collate | between | other => cases resolved

include paramsFit

variable {collation : Collation}

theorem comparisonTerm_fits {op : BinaryOp} {left right : Expr} {term : Term}
    (leftPlanned : left.Planned table) (rightPlanned : right.Planned table)
    (isTerm : comparisonTerm params table op left right collation = some term) :
    term.value.Fits := by
  unfold comparisonTerm at isTerm
  split at isTerm
  · split at isTerm
    · obtain ⟨value, resolved, rfl⟩ := map_eq_some_iff.mp isTerm
      exact resolveOperand_fits rightPlanned paramsFit resolved
    · split at isTerm
      · split at isTerm <;> cases isTerm
      · cases isTerm
  · split at isTerm
    · obtain ⟨value, resolved, rfl⟩ := map_eq_some_iff.mp isTerm
      exact resolveOperand_fits leftPlanned paramsFit resolved
    · cases isTerm
  · cases isTerm

theorem boundTerm_fits {ordinal : Nat} {op : BinaryOp} {bound : Expr} {term : Term}
    (planned : bound.Planned table) (member : term ∈ boundTerm params ordinal op bound collation) :
    term.value.Fits := by
  unfold boundTerm at member
  split at member
  · rename_i value resolved
    obtain rfl := mem_singleton.mp member
    exact resolveOperand_fits planned paramsFit resolved
  · cases member

theorem collectConjuncts_fits {filter : Expr} (planned : filter.Planned table) :
    ∀ term ∈ collectConjuncts params table filter, term.value.Fits := by
  intro term member
  induction filter with
  | literal | param | column | collate | other => cases member
  | between negated expr low high lowCollation highCollation lowAffinity highAffinity =>
    obtain ⟨-, lowPlanned, highPlanned, -, -⟩ := planned
    cases negated with
    | true => cases member
    | false =>
      unfold collectConjuncts at member
      split at member
      · split at member
        · rcases mem_append.mp member with member | member
          · exact boundTerm_fits paramsFit lowPlanned member
          · exact boundTerm_fits paramsFit highPlanned member
        · cases member
      · cases member
  | binary op left right collation affinity leftIh rightIh =>
    obtain ⟨leftPlanned, rightPlanned, -⟩ := planned
    have comparison : term ∈ (comparisonTerm params table op left right collation).toList ->
        term.value.Fits :=
      fun member => comparisonTerm_fits paramsFit leftPlanned rightPlanned
        (Option.mem_toList.mp member)
    cases op with
    | and =>
      rcases mem_append.mp member with member | member
      · exact leftIh leftPlanned member
      · exact rightIh rightPlanned member
    | eq | lt | ltEq | gt | gtEq => exact comparison member
    | notEq | add | sub | mul | div | mod | or | concat | jsonExtractJson | jsonExtractText =>
      cases member

omit paramsFit in
theorem foldlM_betterIndex_spec {terms : List Term} (fits : ∀ term ∈ terms, term.value.Fits)
    {indexes : List Index}
    (columns : ∀ index ∈ indexes, ∃ ordinals, indexOrdinals table index = .ok ordinals)
    (good : Index -> Prop) (areGood : ∀ index ∈ indexes, good index)
    (best : Option (Index × IndexRange))
    (bestGood : ∀ index probe, best = some (index, probe) ->
      good index ∧ Covers table index terms probe) :
    ∃ found, indexes.foldlM (betterIndex table terms) best = .ok found ∧
      ∀ index probe, found = some (index, probe) → good index ∧ Covers table index terms probe := by
  induction indexes generalizing best with
  | nil => exact ⟨best, rfl, bestGood⟩
  | cons index indexes ih =>
    obtain ⟨ordinals, isOrdinals⟩ := columns index mem_cons_self
    obtain ⟨found, isFound, covers⟩ := indexProbe_spec fits isOrdinals
    have step : ∃ next, betterIndex table terms best index = .ok next ∧
        ∀ index probe, next = some (index, probe) ->
          good index ∧ Covers table index terms probe := by
      unfold betterIndex
      rw [isFound, ok_bind]
      cases found with
      | none => exact ⟨best, rfl, bestGood⟩
      | some probe =>
        refine ⟨_, rfl, ?_⟩
        split
        · intro other otherProbe same
          cases same
          exact ⟨areGood index mem_cons_self, covers probe rfl⟩
        · exact bestGood
    obtain ⟨next, isNext, nextGood⟩ := step
    rw [foldlM_cons, isNext, ok_bind]
    exact ih (fun index member => columns index (mem_cons_of_mem _ member))
      (fun index member => areGood index (mem_cons_of_mem _ member)) next nextGood

theorem chooseIndex_spec {storage : Storage} {catalog : Catalog} {filter : Expr}
    (indexed : Indexed storage catalog table) (planned : filter.Planned table) :
    ∃ found, chooseIndex catalog table (some filter) params = .ok found ∧
      ∀ index probe, found = some (index, probe) ->
        (index ∈ catalog.indexesFor table.name ∧ index.kind = .btree) ∧
          Covers table index (collectConjuncts params table filter) probe := by
  have isBtree : ∀ index ∈ (catalog.indexesFor table.name).filter (·.kind == .btree),
      index ∈ catalog.indexesFor table.name ∧ index.kind = .btree := by
    intro index member
    simpa [mem_filter] using member
  unfold chooseIndex
  simp only
  split
  · exact ⟨none, rfl, fun _ _ found => nomatch found⟩
  · refine foldlM_betterIndex_spec (collectConjuncts_fits paramsFit planned) ?_ _ isBtree none ?_
    · intro index member
      exact indexed.columns index (isBtree index member).1 (isBtree index member).2
    · intro _ _ found
      cases found

end Choice

/-! ## Filtering the candidates is filtering a scan -/

section Exact

variable {storage : Storage} {catalog : Catalog} {table : Table}

variable {name : String} {ids : List RowId} {stored : RowId × Row}

theorem Storage.mem_fetch :
    stored ∈ storage.fetch name ids ↔ stored.1 ∈ ids ∧ stored ∈ storage.rows name := by
  obtain ⟨id, row⟩ := stored
  rw [mem_rows, fetch, mem_filterMap]
  constructor
  · rintro ⟨found, member, isRow⟩
    obtain ⟨_, isRow, same⟩ := map_eq_some_iff.mp isRow
    cases same
    exact ⟨member, isRow⟩
  · rintro ⟨member, isRow⟩
    exact ⟨id, member, map_eq_some_iff.mpr ⟨row, isRow, rfl⟩⟩

section

variable (sorted : ids.Pairwise (· < ·))

include sorted

theorem Storage.pairwise_fetch : (storage.fetch name ids).Pairwise (·.1 < ·.1) := by
  refine List.Pairwise.filterMap _ ?_ sorted
  intro low high less left isLeft right isRight
  obtain ⟨_, -, rfl⟩ := map_eq_some_iff.mp isLeft
  obtain ⟨_, -, rfl⟩ := map_eq_some_iff.mp isRight
  exact less

theorem Storage.fetch_eq_filter :
    storage.fetch name ids = (storage.rows name).filter fun stored => decide (stored.1 ∈ ids) := by
  have irrefl : Std.Irrefl fun left right : RowId × Row => left.1 < right.1 :=
    ⟨fun stored => Nat.lt_irrefl stored.1⟩
  have antisymm : Std.Antisymm fun left right : RowId × Row => left.1 < right.1 :=
    ⟨fun _ _ less more => absurd (Nat.lt_trans less more) (Nat.lt_irrefl _)⟩
  refine List.Pairwise.eq_of_mem_iff (pairwise_fetch sorted) (pairwise_rows.filter _) fun stored => ?_
  rw [mem_filter, mem_fetch, decide_eq_true_eq, and_comm]

/-- Rows fetched by ids in order, with no row of interest missing, filter to what a scan
filters to. -/
theorem Storage.filter_fetch {wanted : RowId × Row -> Bool}
    (complete : ∀ stored ∈ storage.rows name, wanted stored = true -> stored.1 ∈ ids) :
    (storage.fetch name ids).filter wanted = (storage.rows name).filter wanted := by
  rw [fetch_eq_filter sorted, List.filter_filter]
  refine filter_congr fun stored member => ?_
  cases isWanted : wanted stored with
  | false => rfl
  | true => rw [decide_eq_true (complete stored member isWanted)]; rfl

end

theorem pairwise_sorted (nodup : ids.Nodup) :
    (ids.mergeSort fun left right => decide (left ≤ right)).Pairwise (· < ·) := by
  have sorted := @List.pairwise_mergeSort _ (fun left right : RowId => decide (left ≤ right))
    (fun _ _ _ => by simpa using Nat.le_trans) (fun _ _ => by simpa using Nat.le_total _ _) ids
  have apart := (mergeSort_perm ids fun left right => decide (left ≤ right)).nodup_iff.mpr nodup
  exact (sorted.and apart).imp fun both => lt_of_le_of_ne (of_decide_eq_true both.1) both.2

theorem admits_eq_true {env : Env} {filter : Expr} {row : Row} : filter.admits env row = true ↔
      ∃ value, filter.evaluate env row = .ok value ∧ env.numerals.isTruthy value = true := by
  unfold Expr.admits
  split
  · rename_i value evaluated
    exact ⟨fun truthy => ⟨value, evaluated, truthy⟩,
      fun ⟨_, same, truthy⟩ => Except.ok.inj (evaluated.symm.trans same) ▸ truthy⟩
  · rename_i error evaluated
    constructor
    · intro wrong
      cases wrong
    · rintro ⟨value, same, -⟩
      cases evaluated.symm.trans same

theorem rowIdOfEntry_append {front : Bytes} {id : RowId} (small : id < 2 ^ 64) :
    Storage.rowIdOfEntry (front ++ beBytes 8 id) = id := by
  have isLast : (front ++ beBytes 8 id).reverse.take 8 = leBytes 8 id := by
    rw [reverse_append, beBytes, reverse_reverse]
    exact take_left' (length_leBytes 8 id)
  rw [Storage.rowIdOfEntry, isLast]
  exact ofLe_leBytes (by omega)

theorem rowIdOfEntry_indexEntry {index : Index} {key : Bytes} {ordinals : List Nat}
    (isOrdinals : indexOrdinals table index = .ok ordinals)
    (isKey : indexEntry table index stored = .ok key) (small : stored.1 < 2 ^ 64) :
    Storage.rowIdOfEntry key = stored.1 := by
  obtain ⟨bytes, -, rfl⟩ := indexEntry_eq_ok isOrdinals isKey
  exact rowIdOfEntry_append small

namespace Indexed

variable (indexed : Indexed storage catalog table)

include indexed

theorem nodup_scanIndexRowIds {index : Index} (isIndex : index ∈ catalog.indexesFor table.name)
    (isBtree : index.kind = .btree) {range : KeyRange}
    (inside : ∀ key, range.contains key = true -> indexPrefix index.name <+: key) :
    (storage.scanIndexRowIds range).Nodup := by
  obtain ⟨ordinals, isOrdinals⟩ := indexed.columns index isIndex isBtree
  refine List.Nodup.map_on ?_ (Storage.nodup_entries.filter _)
  have owner : ∀ key ∈ storage.entries.filter range.contains,
      ∃ stored ∈ storage.rows table.name, indexEntry table index stored = .ok key ∧
        Storage.rowIdOfEntry key = stored.1 := by
    intro key member
    obtain ⟨isEntry, contains⟩ := mem_filter.mp member
    obtain ⟨stored, isStored, isKey⟩ :=
      indexed.owned index isIndex isBtree key isEntry (inside key contains)
    exact ⟨stored, isStored, isKey,
      rowIdOfEntry_indexEntry isOrdinals isKey (indexed.ids stored isStored)⟩
  intro left isLeft right isRight same
  obtain ⟨stored, isStored, leftKey, leftId⟩ := owner left isLeft
  obtain ⟨other, isOther, rightKey, rightId⟩ := owner right isRight
  have sameId : stored.1 = other.1 := leftId.symm.trans (same.trans rightId)
  have sameRow : stored = other := by
    rw [Storage.mem_rows] at isStored isOther
    rw [sameId, isOther] at isStored
    exact Prod.ext sameId (Option.some.inj isStored).symm
  subst sameRow
  exact Except.ok.inj (leftKey.symm.trans rightKey)

variable {stored : RowId × Row}

theorem mem_scanIndexRowIds {index : Index} (isIndex : index ∈ catalog.indexesFor table.name)
    (isBtree : index.kind = .btree) {range : KeyRange}
    (inside : ∀ key, range.contains key = true -> indexPrefix index.name <+: key)
    (isStored : stored ∈ storage.rows table.name) {entry : Bytes}
    (isEntry : indexEntry table index stored = .ok entry) :
    stored.1 ∈ storage.scanIndexRowIds range ↔ range.contains entry = true := by
  obtain ⟨ordinals, isOrdinals⟩ := indexed.columns index isIndex isBtree
  have named : ∀ {stored : RowId × Row} {key : Bytes}, stored ∈ storage.rows table.name ->
      indexEntry table index stored = .ok key -> Storage.rowIdOfEntry key = stored.1 :=
    fun isStored isKey => rowIdOfEntry_indexEntry isOrdinals isKey (indexed.ids _ isStored)
  rw [Storage.scanIndexRowIds, Storage.scanIndexRange, List.mem_map]
  constructor
  · rintro ⟨key, member, isId⟩
    obtain ⟨isKey, contains⟩ := mem_filter.mp member
    obtain ⟨other, isOther, isOwner⟩ :=
      indexed.owned index isIndex isBtree key isKey (inside key contains)
    have sameId : other.1 = stored.1 := (named isOther isOwner).symm.trans isId
    have sameRow : other = stored := by
      rw [Storage.mem_rows] at isStored isOther
      rw [sameId, isStored] at isOther
      exact Prod.ext sameId (Option.some.inj isOther).symm
    rw [sameRow, isEntry] at isOwner
    rwa [Except.ok.inj isOwner]
  · intro contains
    obtain ⟨key, isKey, isOwner⟩ := indexed.present index isIndex isBtree stored isStored
    obtain rfl := Except.ok.inj (isEntry.symm.trans isOwner)
    exact ⟨entry, mem_filter.mpr ⟨isKey, contains⟩, named isStored isEntry⟩

theorem eq_of_pinnedRowid {filter : Expr} {params : List Value} {id : RowId} {env : Env}
    (planned : filter.Planned table) (isParams : env.params = params)
    (paramsFit : ∀ value ∈ params, value.Fits)
    (pinned : pinnedRowid table (some filter) params = some id)
    (isStored : stored ∈ storage.rows table.name) (admitted : filter.admits env stored.2 = true) :
    stored.1 = id := by
  obtain ⟨aliased, isAlias, pinned⟩ := bind_eq_some_iff.mp pinned
  have isInteger : table.affinityAt aliased = some .integer := by
    obtain ⟨inside, both, -⟩ := findIdx?_eq_some_iff_getElem.mp isAlias
    simp only [Bool.and_eq_true, beq_iff_eq] at both
    rw [Table.affinityAt, getElem?_eq_getElem inside, bind_some, both.2]
    rfl
  obtain ⟨value, evaluated, truthy⟩ := admits_eq_true.mp admitted
  have held := indexed.aliased aliased isAlias stored isStored
  have isId := pinnedWalk_spec isParams paramsFit isInteger planned evaluated truthy pinned
    fun cell isCell => (held cell isCell).imp_right fun same => ⟨_, same⟩
  rcases held _ isId with null | same
  · cases null
  · have known : (id : Int) = asI64 stored.1 := Value.integer.inj same
    have small : stored.1 < 2 ^ 64 := indexed.ids stored isStored
    unfold asI64 at known
    split at known
    · exact_mod_cast known.symm
    · have small : (stored.1 : Int) < 2 ^ 64 := by exact_mod_cast small
      omega

end Indexed

/-- Whether a row passes a `WHERE`, which may be absent. The environment may differ from
row to row. -/
def Passes (filter : Option Expr) (envs : RowId -> Env) (stored : RowId × Row) : Bool :=
  filter.all fun filter => filter.admits (envs stored.1) stored.2

/-- The candidates of the path the engine picks, filtered, are a scan filtered. -/
theorem access_path_exact (indexed : Indexed storage catalog table) (filter : Option Expr)
    (planned : ∀ expr, filter = some expr -> expr.Planned table) (params : List Value)
    (paramsFit : ∀ value ∈ params, value.Fits) (envs : RowId -> Env)
    (isParams : ∀ id, (envs id).params = params) :
    ∃ candidates, candidateRows storage catalog table filter params = .ok candidates ∧
      candidates.filter (Passes filter envs) =
        (storage.rows table.name).filter (Passes filter envs) := by
  unfold candidateRows
  cases filter with
  | none =>
    have noPin : pinnedRowid table none params = none := by
      unfold pinnedRowid
      cases table.rowidAlias <;> rfl
    rw [noPin]
    exact ⟨_, rfl, rfl⟩
  | some filter =>
    have planned := planned filter rfl
    cases pinned : pinnedRowid table (some filter) params with
    | some id =>
      refine ⟨_, rfl, Storage.filter_fetch (pairwise_singleton _ _) ?_⟩
      intro stored isStored passes
      rw [indexed.eq_of_pinnedRowid planned (isParams stored.1) paramsFit pinned isStored passes]
      exact mem_singleton_self id
    | none =>
      obtain ⟨found, isFound, good⟩ := chooseIndex_spec paramsFit indexed planned
      simp only [isFound, ok_bind]
      cases found with
      | none => exact ⟨_, rfl, rfl⟩
      | some choice =>
        obtain ⟨index, probe⟩ := choice
        obtain ⟨⟨isIndex, isBtree⟩, covers⟩ := good index probe rfl
        refine ⟨_, rfl, Storage.filter_fetch ?_ ?_⟩
        · exact pairwise_sorted (indexed.nodup_scanIndexRowIds isIndex isBtree covers.inside)
        · intro stored isStored passes
          rw [mem_mergeSort]
          obtain ⟨value, evaluated, truthy⟩ := admits_eq_true.mp passes
          obtain ⟨key, -, isKey⟩ := indexed.present index isIndex isBtree stored isStored
          have contains := covers.covered (envs stored.1) stored.1 stored.2 key
            (indexed.fits stored isStored) (indexed.conforms stored isStored)
            (collectConjuncts_holds (isParams stored.1) paramsFit planned evaluated truthy)
            isKey
          exact (indexed.mem_scanIndexRowIds isIndex isBtree covers.inside isStored isKey).mpr
            contains

/-! A table with a row-id alias and an index under `NOCASE`, probed by name. -/

def people : Table :=
  ⟨"people", [⟨"id", .integer, true, false, none, .binary⟩,
    ⟨"name", .text, false, false, none, .noCase⟩], false, false, [], false⟩

def peopleByName : Index := ⟨"by_name", "people", ["name"], .btree, false, [.noCase], .cosine⟩

def peopleCatalog : Catalog :=
  { Catalog.empty with
    tables := Catalog.empty.tables.insert "people" people
    indexes := Catalog.empty.indexes.insert "by_name" peopleByName }

/-- A row with its entry. -/
def withPerson (storage : Storage) (stored : RowId × Row) : Storage :=
  let storage := storage.putRow people.name stored.1 stored.2
  match indexEntry people peopleByName stored with
  | .ok key => storage.putIndexEntry key
  | .error _ => storage

def peopleRows : List (RowId × Row) :=
  [(1, [.integer 1, .text "Ann"]), (2, [.integer 2, .text "bob"])]

def peopleStorage : Storage := peopleRows.foldl withPerson (.opened ∅)

def peopleEnv : Env := ⟨⟨fun _ => none, fun _ => "", fun _ => ⟨0⟩, fun _ => ""⟩, [.text "BOB"],
  fun _ _ _ => .ok .null, fun _ _ => .ok .null⟩

/-- `WHERE name = ?`. -/
def nameIsParam : Expr := .binary .eq (.column 1) (.param 0) .noCase .text

theorem people_indexed : Indexed peopleStorage peopleCatalog people := by
  have isRows : peopleStorage.rows people.name = peopleRows := by decide +kernel
  have isIndexes : peopleCatalog.indexesFor people.name = [peopleByName] := by decide +kernel
  have entries : ∀ key ∈ peopleStorage.entries,
      ∃ stored ∈ peopleRows, indexEntry people peopleByName stored = .ok key := by decide +kernel
  have present : ∀ stored ∈ peopleRows, ∃ key ∈ peopleStorage.entries,
      indexEntry people peopleByName stored = .ok key := by decide +kernel
  constructor
  · rw [isRows]
    decide
  · rw [isRows]
    simp [peopleRows, Value.Fits]
  · rw [isRows]
    intro stored isStored ordinal column cell isColumn isCell
    rcases ordinal with _ | _ | ordinal
    · obtain rfl := Option.some.inj isColumn
      simp only [peopleRows, mem_cons, not_mem_nil, or_false] at isStored
      rcases isStored with rfl | rfl <;> obtain rfl := Option.some.inj isCell <;> exact ⟨_, rfl⟩
    · obtain rfl := Option.some.inj isColumn
      simp only [peopleRows, mem_cons, not_mem_nil, or_false] at isStored
      rcases isStored with rfl | rfl <;> obtain rfl := Option.some.inj isCell <;> exact ⟨_, rfl⟩
    · cases isColumn
  · intro ordinal isAlias
    obtain rfl : 0 = ordinal := Option.some.inj isAlias
    rw [isRows]
    simp [peopleRows, asI64]
  · intro index isIndex _
    rw [isIndexes, mem_singleton] at isIndex
    subst isIndex
    exact ⟨[1], by decide +kernel⟩
  · intro index isIndex _ stored isStored
    rw [isIndexes, mem_singleton] at isIndex
    subst isIndex
    exact present stored (isRows ▸ isStored)
  · intro index isIndex _ key isKey _
    rw [isIndexes, mem_singleton] at isIndex
    subst isIndex
    rw [isRows]
    exact entries key isKey

theorem access_path_exact_people : ∃ candidates,
      candidateRows peopleStorage peopleCatalog people (some nameIsParam) [.text "BOB"] =
        .ok candidates ∧
      candidates.filter (Passes (some nameIsParam) fun _ => peopleEnv) =
        (peopleStorage.rows people.name).filter (Passes (some nameIsParam) fun _ => peopleEnv) :=
  access_path_exact people_indexed (some nameIsParam)
    (fun _ isFilter => Option.some.inj isFilter ▸ ⟨trivial, trivial, fun _ => by decide⟩)
    [.text "BOB"] (by simp [Value.Fits]) (fun _ => peopleEnv) (fun _ => rfl)

end Exact

end InlaySql.Sql
