import InlaySql.Sql.KeyedOrder

/-!
# Index keys are memcomparable

The bytes of an index key sort as the columns they encode: by storage class, numbers as
doubles, text under its collation, blobs bytewise, and then by row id. The ranges a probe
reads hold exactly the entries their columns say.
-/

namespace InlaySql.Sql

open List Lib

/-! ## The order of columns -/

/-- `NULL` below numbers below text below blobs. -/
def classRank : Value -> Nat
  | .null => 0
  | .integer _ | .real _ => 1
  | .text _ => 2
  | .blob _ => 3
  | .vector _ => 4

/-- Two values of a column: the class decides, and within a class the contents. -/
def columnOrder (collation : Collation) (left right : Value) : Ordering :=
  (compare (classRank left) (classRank right)).then <|
    match left, right with
    | .text left, .text right => collation.compare left right
    | .blob left, .blob right => List.compareLex compare left right
    | left, right =>
      match left.asF64, right.asF64 with
      | some left, some right => (left.partialCmp right).getD .eq
      | _, _ => .eq

/-- Rows column by column: the first columns that differ decide. -/
def columnsOrder (collations : List Collation) : Nat -> List Value -> List Value -> Ordering
  | position, left :: lefts, right :: rights =>
    (columnOrder (Collation.atPosition collations position) left right).then
      (columnsOrder collations (position + 1) lefts rights)
  | _, _, _ => .eq

/-- A value an index can hold: no vector, no `NaN`, and 64-bit if it is an integer. -/
def Value.Indexable : Value -> Prop
  | .integer value => (Value.integer value).Fits
  | .real value => value.isNan = false
  | .vector _ => False
  | .null | .text _ | .blob _ => True

def rowIdFromEntry (key : Bytes) : Except Error RowId :=
  if key.length < 8 then .error (.corrupt "index entry key is too short")
  else .ok (Storage.rowIdOfEntry key)

/-! ## One column -/

section Column

variable {collation : Collation} {left right : Value} {leftBytes rightBytes : Bytes}

theorem columnOrder_eq (leftOrdered : left.Ordered) (rightOrdered : right.Ordered) :
    columnOrder collation left right = cellOrder collation left.rounded right.rounded := by
  obtain ⟨leftClass, isLeft⟩ := leftOrdered
  obtain ⟨rightClass, isRight⟩ := rightOrdered
  cases left <;> cases isLeft <;> cases right <;> cases isRight <;> rfl

variable {value : Value}

theorem Value.Indexable.ordered (indexable : value.Indexable) : value = .null ∨ value.Ordered := by
  cases value with
  | null => exact .inl rfl
  | vector lanes => exact indexable.elim
  | integer | real | text | blob => exact .inr ⟨_, rfl⟩

theorem Value.Indexable.encodes (indexable : value.Indexable) (collation : Collation) :
    ∃ bytes, encodeValue collation value = .ok bytes := by
  cases value with
  | null => exact ⟨_, rfl⟩
  | vector lanes => exact indexable.elim
  | text text => exact ⟨_, rfl⟩
  | blob bytes => exact ⟨_, rfl⟩
  | integer number =>
    obtain ⟨code, isCode⟩ := totalOrder_ok (F64.signed_ofInt (Fits.natAbs_le indexable)).1
    exact ⟨_, by rw [encodeValue, isCode, ok_bind]; rfl⟩
  | real number =>
    obtain ⟨code, isCode⟩ := totalOrder_ok indexable
    exact ⟨_, by rw [encodeValue, isCode, ok_bind]; rfl⟩

theorem below_of_ordered {bytes : Bytes} (ordered : value.Ordered)
    (encoded : encodeValue collation value = .ok bytes) : Below [1] bytes := by
  obtain ⟨number, isClass⟩ := ordered
  obtain ⟨small, rest, rfl⟩ := encodeValue_tag isClass encoded
  have positive : 1 ≤ number := by cases value <;> cases isClass <;> decide
  refine Below.of_lt ?_ [] rest
  rw [UInt8.lt_iff_toNat_lt, UInt8.toNat_ofNat']
  simp only [UInt8.reduceToNat]
  omega

theorem encodeValue_columnOrder (leftIndexable : left.Indexable) (rightIndexable : right.Indexable)
    (isLeft : encodeValue collation left = .ok leftBytes)
    (isRight : encodeValue collation right = .ok rightBytes) :
    Told (columnOrder collation left right) leftBytes rightBytes := by
  rcases leftIndexable.ordered with rfl | leftOrdered
  · cases isLeft
    rcases rightIndexable.ordered with rfl | rightOrdered
    · cases isRight
      exact (rfl : ([1] : Bytes) = [1])
    · have order : columnOrder collation .null right = .lt := by
        obtain ⟨number, isClass⟩ := rightOrdered
        cases right <;> cases isClass <;> rfl
      rw [order]
      exact below_of_ordered rightOrdered isRight
  · rcases rightIndexable.ordered with rfl | rightOrdered
    · cases isRight
      have order : columnOrder collation left .null = .gt := by
        obtain ⟨number, isClass⟩ := leftOrdered
        cases left <;> cases isClass <;> rfl
      rw [order]
      exact below_of_ordered leftOrdered isLeft
    · rw [columnOrder_eq leftOrdered rightOrdered]
      exact encodeValue_told leftOrdered rightOrdered isLeft isRight

end Column

/-! ## Told bytes -/

namespace Told

variable {ordering : Ordering} {left right : Bytes}

theorem compareLex_of_below {low high : Bytes} (below : Below low high) :
    List.compareLex compare low high = .lt := by
  obtain ⟨shared, first, second, rest, more, rfl, rfl, lt⟩ := below
  induction shared with
  | nil => simp [List.compareLex_cons_cons, compare_lt_iff_lt.mpr lt]
  | cons byte shared ih =>
    rw [cons_append, cons_append, List.compareLex_cons_cons, compare_eq_iff_eq.mpr rfl]
    exact ih

theorem compareLex_eq (told : Told ordering left right) :
    List.compareLex compare left right = ordering := by
  cases ordering with
  | lt => exact compareLex_of_below told
  | eq => exact (compareLex_eq_eq_iff left right).mpr told
  | gt =>
    have swapped : List.compareLex compare left right =
        (List.compareLex compare right left).swap := Std.OrientedCmp.eq_swap
    rw [swapped, compareLex_of_below told]
    rfl

theorem eq_of_isPrefix (told : Told ordering left right) (rest : Bytes)
    (within : right <+: left ++ rest) : ordering = .eq := by
  cases ordering with
  | eq => rfl
  | lt => exact absurd within (Below.not_isPrefix told rest).2
  | gt => exact absurd within (Below.not_isPrefix told rest).1

theorem le_iff (told : Told ordering left right) (rest : Bytes) :
    right ≤ left ++ rest ↔ ordering.isGE = true := by
  cases ordering with
  | lt =>
    have less : left ++ rest < right := by
      have := (Below.append_right told rest []).lt
      rwa [append_nil] at this
    exact iff_of_false (not_le.mpr less) (by decide)
  | eq =>
    obtain rfl : left = right := told
    exact iff_of_true (le_of_isPrefix ⟨rest, rfl⟩) rfl
  | gt =>
    have less : right < left ++ rest := by
      have := (Below.append_right told [] rest).lt
      rwa [append_nil] at this
    exact iff_of_true less.le rfl

/-- What starts with the left string, against the first key past those that start with
the right one. -/
theorem lt_upperBound_iff (told : Told ordering left right) (rest : Bytes) {byte : UInt8}
    (member : byte ∈ right) (small : byte ≠ 255) :
    (∀ bound, upperBound right = some bound -> left ++ rest < bound) ↔ ordering.isLE = true := by
  constructor
  · intro before
    cases ordering with
    | lt | eq => rfl
    | gt =>
      exfalso
      have low : right ≤ left ++ rest := (told.le_iff rest).mpr rfl
      have within := KeyRange.isPrefix_of_contains member small
        (KeyRange.contains_iff.mpr ⟨low, before⟩)
      exact nomatch told.eq_of_isPrefix _ within
  · intro le bound found
    refine KeyRange.lt_upperBound found ?_
    cases ordering with
    | lt =>
      right
      have := Below.append_right told rest []
      rwa [append_nil] at this
    | eq =>
      obtain rfl : left = right := told
      exact .inl ⟨rest, rfl⟩
    | gt => exact absurd le (by decide)

end Told

/-! ## Rows -/

section Rows

variable {collations : List Collation}

variable {values : List Value}

theorem encodeValues_ok (collations : List Collation)
    (indexable : ∀ value ∈ values, value.Indexable) (position : Nat) :
    ∃ bytes, encodeValues collations position values = .ok bytes := by
  induction values generalizing position with
  | nil => exact ⟨[], rfl⟩
  | cons value values ih =>
    rw [forall_mem_cons] at indexable
    obtain ⟨first, isFirst⟩ := indexable.1.encodes (Collation.atPosition collations position)
    obtain ⟨rest, isRest⟩ := ih indexable.2 (position + 1)
    exact ⟨_, encodeValues_of_cons isFirst isRest⟩

theorem encodeValues_columnsOrder {position : Nat} {lefts rights : List Value}
    {leftBytes rightBytes : Bytes} (width : lefts.length = rights.length)
    (leftIndexable : ∀ value ∈ lefts, value.Indexable)
    (rightIndexable : ∀ value ∈ rights, value.Indexable)
    (isLeft : encodeValues collations position lefts = .ok leftBytes)
    (isRight : encodeValues collations position rights = .ok rightBytes) :
    Told (columnsOrder collations position lefts rights) leftBytes rightBytes := by
  induction lefts generalizing position rights leftBytes rightBytes with
  | nil =>
    obtain rfl : rights = [] := length_eq_zero_iff.mp width.symm
    cases isLeft
    cases isRight
    exact (rfl : ([] : Bytes) = [])
  | cons left lefts ih =>
    obtain ⟨right, rights, rfl⟩ := exists_cons_of_length_eq_add_one width.symm
    rw [forall_mem_cons] at leftIndexable rightIndexable
    obtain ⟨leftFirst, leftRest, isLeftFirst, isLeftRest, rfl⟩ := encodeValues_cons isLeft
    obtain ⟨rightFirst, rightRest, isRightFirst, isRightRest, rfl⟩ := encodeValues_cons isRight
    have first := encodeValue_columnOrder leftIndexable.1 rightIndexable.1 isLeftFirst isRightFirst
    exact first.append
      (ih (Nat.succ.inj width) leftIndexable.2 rightIndexable.2 isLeftRest isRightRest)

theorem encodeValues_append {position : Nat} {leading rest : List Value} {bytes : Bytes}
    (encoded : encodeValues collations position (leading ++ rest) = .ok bytes) :
    ∃ first second, encodeValues collations position leading = .ok first ∧
      encodeValues collations (position + leading.length) rest = .ok second ∧
      bytes = first ++ second := by
  induction leading generalizing position bytes with
  | nil => exact ⟨[], bytes, rfl, encoded, rfl⟩
  | cons value leading ih =>
    obtain ⟨first, tail, isFirst, isTail, rfl⟩ := encodeValues_cons encoded
    obtain ⟨front, back, isFront, isBack, rfl⟩ := ih isTail
    refine ⟨first ++ front, back, encodeValues_of_cons isFirst isFront, ?_,
      (append_assoc _ _ _).symm⟩
    rwa [length_cons, Nat.add_comm leading.length, <- Nat.add_assoc]

theorem probePrefix_eq (index : String) {bytes : Bytes}
    (encoded : encodeValues collations 0 values = .ok bytes) :
    probePrefix index values collations = .ok (indexPrefix index ++ bytes) := by
  rw [probePrefix, encoded]
  rfl

theorem entryKey_eq_ok {index : String} {id : RowId} {key : Bytes}
    (isKey : entryKey index values collations id = .ok key) :
    ∃ bytes, encodeValues collations 0 values = .ok bytes ∧
      key = indexPrefix index ++ bytes ++ beBytes 8 id := by
  obtain ⟨start, isStart, isKey⟩ := bind_eq_ok isKey
  obtain ⟨bytes, isBytes, isStart⟩ := bind_eq_ok isStart
  cases isStart
  cases isKey
  exact ⟨bytes, isBytes, rfl⟩

theorem one_mem_indexPrefix (index : String) : (1 : UInt8) ∈ indexPrefix index := by
  simp [indexPrefix]

theorem beBytes_told {low high : RowId} (lowSmall : low < 2 ^ 64) (highSmall : high < 2 ^ 64) :
    Told (compare low high) (beBytes 8 low) (beBytes 8 high) := by
  rcases lt_trichotomy low high with less | rfl | more
  · rw [compare_lt_iff_lt.mpr less]
    exact below_leBytes_reverse less (by omega)
  · rw [compare_eq_iff_eq.mpr rfl]
    exact (rfl : beBytes 8 low = beBytes 8 low)
  · rw [compare_gt_iff_gt.mpr more]
    exact below_leBytes_reverse more (by omega)

end Rows

/-! ## The keys of an index -/

/-- The entries of an index sort as the columns and row ids they are made of, and the
ranges of the index hold the entries their columns say. -/
structure KeysOrdered (index : String) (collations : List Collation) : Prop where
  /-- Rows of one width are encoded, and their encodings compare as their columns do. -/
  rows : ∀ (position : Nat) (lefts rights : List Value), lefts.length = rights.length ->
    (∀ value ∈ lefts, value.Indexable) -> (∀ value ∈ rights, value.Indexable) ->
    ∃ leftBytes rightBytes, encodeValues collations position lefts = .ok leftBytes ∧
      encodeValues collations position rights = .ok rightBytes ∧
      List.compareLex compare leftBytes rightBytes = columnsOrder collations position lefts rights
  /-- No column's encoding starts another's. -/
  prefixFree : ∀ (collation : Collation) (left right : Value) (leftBytes rightBytes : Bytes),
    left.Indexable -> right.Indexable -> encodeValue collation left = .ok leftBytes ->
    encodeValue collation right = .ok rightBytes → leftBytes <+: rightBytes → leftBytes = rightBytes
  /-- Entries are ordered by their columns and then by row id. -/
  entries : ∀ (lefts rights : List Value) (leftId rightId : RowId), lefts.length = rights.length ->
    (∀ value ∈ lefts, value.Indexable) -> (∀ value ∈ rights, value.Indexable) ->
    leftId < 2 ^ 64 -> rightId < 2 ^ 64 ->
    ∃ leftKey rightKey, entryKey index lefts collations leftId = .ok leftKey ∧
      entryKey index rights collations rightId = .ok rightKey ∧
      List.compareLex compare leftKey rightKey =
        (columnsOrder collations 0 lefts rights).then (compare leftId rightId)
  /-- The row id is read back from an entry. -/
  rowId : ∀ (values : List Value) (id : RowId) (key : Bytes), id < 2 ^ 64 ->
    entryKey index values collations id = .ok key -> rowIdFromEntry key = .ok id
  /-- A range of equal values holds the entries whose first columns compare equal to them. -/
  equality : ∀ values : List Value, (∀ value ∈ values, value.Indexable) ->
    ∃ range, KeyRange.equality index values collations = .ok range ∧
      ∀ (leading rest : List Value) (id : RowId) (key : Bytes),
        leading.length = values.length -> (∀ value ∈ leading ++ rest, value.Indexable) ->
        entryKey index (leading ++ rest) collations id = .ok key ->
        (range.contains key = true ↔ columnsOrder collations 0 leading values = .eq)
  /-- A range narrowed at both ends holds the entries whose first columns equal the leading
  values and whose next column lies between the bounds. -/
  between : ∀ (lead : List Value) (low high : Value), (∀ value ∈ lead, value.Indexable) ->
    low.Indexable -> high.Indexable ->
    ∃ range, (do
        let range <- (KeyRange.whole index).withLower index lead collations low
        range.withUpper index lead collations high) = Except.ok range ∧
      ∀ (leading rest : List Value) (next : Value) (id : RowId) (key : Bytes),
        leading.length = lead.length -> (∀ value ∈ leading ++ next :: rest, value.Indexable) ->
        entryKey index (leading ++ next :: rest) collations id = .ok key ->
        (range.contains key = true ↔ columnsOrder collations 0 leading lead = .eq ∧
          (columnOrder (Collation.atPosition collations lead.length) next low).isGE = true ∧
          (columnOrder (Collation.atPosition collations lead.length) next high).isLE = true)

section Keys

variable (index : String) (collations : List Collation)

theorem entries_ordered {lefts rights : List Value} {leftId rightId : RowId}
    (width : lefts.length = rights.length) (leftIndexable : ∀ value ∈ lefts, value.Indexable)
    (rightIndexable : ∀ value ∈ rights, value.Indexable) (leftSmall : leftId < 2 ^ 64)
    (rightSmall : rightId < 2 ^ 64) :
    ∃ leftKey rightKey, entryKey index lefts collations leftId = .ok leftKey ∧
      entryKey index rights collations rightId = .ok rightKey ∧
      List.compareLex compare leftKey rightKey =
        (columnsOrder collations 0 lefts rights).then (compare leftId rightId) := by
  obtain ⟨leftBytes, isLeft⟩ := encodeValues_ok collations leftIndexable 0
  obtain ⟨rightBytes, isRight⟩ := encodeValues_ok collations rightIndexable 0
  have columns := encodeValues_columnsOrder width leftIndexable rightIndexable isLeft isRight
  have shared : Told .eq (indexPrefix index) (indexPrefix index) :=
    (rfl : indexPrefix index = indexPrefix index)
  have keys := (shared.append columns).append (beBytes_told leftSmall rightSmall)
  refine ⟨_, _, ?_, ?_, keys.compareLex_eq⟩
  · rw [entryKey, probePrefix_eq index isLeft]
    rfl
  · rw [entryKey, probePrefix_eq index isRight]
    rfl

variable {values : List Value}

theorem rowIdFromEntry_entryKey {id : RowId} {key : Bytes} (small : id < 2 ^ 64)
    (isKey : entryKey index values collations id = .ok key) : rowIdFromEntry key = .ok id := by
  obtain ⟨bytes, -, rfl⟩ := entryKey_eq_ok isKey
  have long : ¬ (indexPrefix index ++ bytes ++ beBytes 8 id).length < 8 := by
    simp only [beBytes, length_append, length_reverse, length_leBytes]
    omega
  rw [rowIdFromEntry, if_neg long, rowIdOfEntry_append small]

theorem equality_holds (indexable : ∀ value ∈ values, value.Indexable) :
    ∃ range, KeyRange.equality index values collations = .ok range ∧
      ∀ (leading rest : List Value) (id : RowId) (key : Bytes),
        leading.length = values.length -> (∀ value ∈ leading ++ rest, value.Indexable) ->
        entryKey index (leading ++ rest) collations id = .ok key ->
        (range.contains key = true ↔ columnsOrder collations 0 leading values = .eq) := by
  obtain ⟨bytes, isBytes⟩ := encodeValues_ok collations indexable 0
  refine ⟨KeyRange.ofPrefix (indexPrefix index ++ bytes), ?_, ?_⟩
  · rw [KeyRange.equality, probePrefix_eq index isBytes]
    rfl
  · intro leading rest id key width rowIndexable isKey
    obtain ⟨rowBytes, isRow, rfl⟩ := entryKey_eq_ok isKey
    obtain ⟨first, second, isFirst, -, rfl⟩ := encodeValues_append isRow
    have told := encodeValues_columnsOrder width
      (fun value member => rowIndexable value (mem_append_left _ member)) indexable isFirst
      isBytes
    have starts : indexPrefix index ++ bytes <+:
          indexPrefix index ++ (first ++ second) ++ beBytes 8 id ↔
        bytes <+: first ++ (second ++ beBytes 8 id) := by
      rw [append_assoc, append_assoc, prefix_append_right_inj]
    constructor
    · intro inside
      have within := KeyRange.isPrefix_of_contains
        (mem_append_left _ (one_mem_indexPrefix index)) (by decide) inside
      exact told.eq_of_isPrefix _ (starts.mp within)
    · intro same
      obtain rfl : first = bytes := told.eq_iff.mpr same
      exact KeyRange.contains_ofPrefix (starts.mpr ⟨_, rfl⟩)

theorem between_holds {lead : List Value} {low high : Value}
    (indexable : ∀ value ∈ lead, value.Indexable) (lowIndexable : low.Indexable)
    (highIndexable : high.Indexable) :
    ∃ range, (do
        let range <- (KeyRange.whole index).withLower index lead collations low
        range.withUpper index lead collations high) = Except.ok range ∧
      ∀ (leading rest : List Value) (next : Value) (id : RowId) (key : Bytes),
        leading.length = lead.length -> (∀ value ∈ leading ++ next :: rest, value.Indexable) ->
        entryKey index (leading ++ next :: rest) collations id = .ok key ->
        (range.contains key = true ↔ columnsOrder collations 0 leading lead = .eq ∧
          (columnOrder (Collation.atPosition collations lead.length) next low).isGE = true ∧
          (columnOrder (Collation.atPosition collations lead.length) next high).isLE = true) := by
  obtain ⟨bytes, isBytes⟩ := encodeValues_ok collations indexable 0
  obtain ⟨lowBytes, isLow⟩ := lowIndexable.encodes (Collation.atPosition collations lead.length)
  obtain ⟨highBytes, isHigh⟩ :=
    highIndexable.encodes (Collation.atPosition collations lead.length)
  have isStart := probePrefix_eq index isBytes
  obtain ⟨lowered, isLowered, inLowered⟩ := KeyRange.withLower_spec isStart isLow
  obtain ⟨range, isRange, inRange⟩ := KeyRange.withUpper_spec isStart isHigh
  refine ⟨range, by rw [isLowered, ok_bind, isRange], ?_⟩
  intro leading rest next id key width rowIndexable isKey
  obtain ⟨rowBytes, isRow, rfl⟩ := entryKey_eq_ok isKey
  obtain ⟨first, second, isFirst, isSecond, rfl⟩ := encodeValues_append isRow
  obtain ⟨nextBytes, others, isNext, -, rfl⟩ := encodeValues_cons isSecond
  rw [Nat.zero_add, width] at isNext
  have columns := encodeValues_columnsOrder width
    (fun value member => rowIndexable value (mem_append_left _ member)) indexable isFirst
    isBytes
  have nextIndexable : next.Indexable := rowIndexable next (by simp)
  have shared : Told .eq (indexPrefix index) (indexPrefix index) :=
    (rfl : indexPrefix index = indexPrefix index)
  have toLow := (shared.append columns).append
    (encodeValue_columnOrder nextIndexable lowIndexable isNext isLow)
  have toHigh := (shared.append columns).append
    (encodeValue_columnOrder nextIndexable highIndexable isNext isHigh)
  have whole : (KeyRange.whole index).contains
      (indexPrefix index ++ (first ++ (nextBytes ++ others)) ++ beBytes 8 id) = true :=
    KeyRange.contains_ofPrefix ⟨_, (append_assoc _ _ _).symm⟩
  have split : indexPrefix index ++ (first ++ (nextBytes ++ others)) ++ beBytes 8 id =
      indexPrefix index ++ first ++ nextBytes ++ (others ++ beBytes 8 id) := by
    simp only [append_assoc]
  rw [inRange, inLowered, split, toLow.le_iff, toHigh.lt_upperBound_iff _
    (mem_append_left _ (mem_append_left _ (one_mem_indexPrefix index))) (by decide),
    <- split, and_iff_right whole]
  cases columnsOrder collations 0 leading lead <;> simp [Ordering.then]

/-- The keys of every index are ordered as their columns. -/
theorem index_keys_ordered : KeysOrdered index collations where
  rows := by
    intro position lefts rights width leftIndexable rightIndexable
    obtain ⟨leftBytes, isLeft⟩ := encodeValues_ok collations leftIndexable position
    obtain ⟨rightBytes, isRight⟩ :=
      encodeValues_ok collations rightIndexable position
    exact ⟨_, _, isLeft, isRight, (encodeValues_columnsOrder width leftIndexable rightIndexable
      isLeft isRight).compareLex_eq⟩
  prefixFree := by
    intro collation left right leftBytes rightBytes leftIndexable rightIndexable isLeft isRight
      within
    have told := encodeValue_columnOrder rightIndexable leftIndexable isRight isLeft
    have same := told.eq_of_isPrefix [] (by rwa [append_nil])
    exact (told.eq_iff.mpr same).symm
  entries := fun lefts rights leftId rightId => entries_ordered index collations
  rowId := fun values id key => rowIdFromEntry_entryKey index collations
  equality := fun values => equality_holds index collations
  between := fun lead low high => between_holds index collations

end Keys

end InlaySql.Sql
