import InlaySql.Sql.Dml
import InlaySql.Sql.JoinKeys

/-!
# The order of primary keys

Two orders on the keys of a `WITHOUT ROWID` table. One is that of the comparisons, which
compare two integers exactly. The other is that of the stored bytes, which hold every
number as a double. They agree on two keys unless two integers that decide between them
round to one double.
-/

namespace InlaySql.Sql

open List Lib

/-! ## Cells -/

/-- How a comparison orders two cells of a column. -/
def cellOrder (collation : Collation) (left right : Value) : Ordering :=
  match classCompare left right collation with
  | .ok ordering => ordering
  | .error _ => .eq

/-- Tuples of cells in order: the first cells that differ decide. -/
def cellsOrder (collations : List Collation) : Nat -> List Value -> List Value -> Ordering
  | position, left :: lefts, right :: rights =>
    (cellOrder (Collation.atPosition collations position) left right).then
      (cellsOrder collations (position + 1) lefts rights)
  | _, _, _ => .eq

/-- `=` of two cells of a column, as the evaluator decides it. -/
def sameCell (numerals : Numerals) (collation : Collation) (left right : Value) : Bool :=
  match numerals.compareCells .eq left right collation .none with
  | .ok value => numerals.isTruthy value
  | .error _ => false

/-- `=` of two tuples, cell by cell. -/
def sameCells (numerals : Numerals) (collations : List Collation) :
    Nat -> List Value -> List Value -> Bool
  | position, left :: lefts, right :: rights =>
    sameCell numerals (Collation.atPosition collations position) left right &&
      sameCells numerals collations (position + 1) lefts rights
  | _, _, _ => true

namespace Value

/-- A number as a double, which is how a key stores it. -/
def rounded : Value -> Value
  | .integer value => .real (F64.ofInt value)
  | value => value

/-- A value that comparisons order: neither `NULL` nor a vector. -/
def Ordered (value : Value) : Prop := ∃ number, value.storageClass = some number

theorem Ordered.rounded {value : Value} (ordered : value.Ordered) : value.rounded.Ordered := by
  cases value with
  | integer value => exact ⟨1, rfl⟩
  | null | real | text | blob | vector => exact ordered

theorem Ordered.of_encodeValue {collation : Collation} {value : Value} {bytes : Bytes}
    (notNull : value ≠ .null) (encoded : encodeValue collation value = .ok bytes) :
    value.Ordered := by
  cases value with
  | null => exact absurd rfl notNull
  | vector lanes => cases encoded
  | integer | real | text | blob => exact ⟨_, rfl⟩

end Value

theorem encodeValue_rounded (collation : Collation) (value : Value) :
    encodeValue collation value.rounded = encodeValue collation value := by
  cases value <;> rfl

section Cells

variable {collation : Collation} {left right : Value}

theorem classCompare_ok (leftOrdered : left.Ordered) (rightOrdered : right.Ordered) :
    classCompare left right collation = .ok (cellOrder collation left right) := by
  obtain ⟨leftClass, isLeft⟩ := leftOrdered
  obtain ⟨rightClass, isRight⟩ := rightOrdered
  have compared : ∃ ordering, classCompare left right collation = .ok ordering := by
    unfold classCompare
    rw [isLeft, isRight]
    simp only
    split
    · split
      · exact ⟨_, rfl⟩
      · exact ⟨_, rfl⟩
      · exact ⟨_, rfl⟩
      · split <;> exact ⟨_, rfl⟩
    · exact ⟨_, rfl⟩
  obtain ⟨ordering, compared⟩ := compared
  rw [cellOrder, compared]

theorem F64.partialCmp_swap (low high : F64) :
    (high.partialCmp low).getD .eq = ((low.partialCmp high).getD .eq).swap := by
  unfold F64.partialCmp
  rw [Bool.or_comm]
  split
  · rfl
  · exact (Std.OrientedCmp.eq_swap : compare high.signed low.signed = _)

theorem Collation.compare_swap (left right : String) :
    collation.compare right left = (collation.compare left right).swap := by
  rw [Collation.compare_eq, Collation.compare_eq]
  exact Std.OrientedCmp.eq_swap

theorem cellOrder_swap (collation : Collation) (left right : Value) :
    cellOrder collation right left = (cellOrder collation left right).swap := by
  cases left <;> cases right <;> first | rfl | skip
  · rename_i left right
    exact (Std.OrientedCmp.eq_swap : compare right left = _)
  · exact F64.partialCmp_swap _ _
  · exact F64.partialCmp_swap _ _
  · exact F64.partialCmp_swap _ _
  · exact Collation.compare_swap _ _
  · rename_i left right
    exact (Std.OrientedCmp.eq_swap : List.compareLex compare right left = _)

theorem cellsOrder_swap (collations : List Collation) (position : Nat) (lefts rights : List Value) :
    cellsOrder collations position rights lefts =
      (cellsOrder collations position lefts rights).swap := by
  induction lefts generalizing position rights with
  | nil => cases rights <;> rfl
  | cons left lefts ih =>
    cases rights with
    | nil => rfl
    | cons right rights =>
      rw [cellsOrder, cellsOrder, Ordering.swap_then, <- cellOrder_swap, <- ih]

theorem sameCell_iff (numerals : Numerals) (leftOrdered : left.Ordered)
    (rightOrdered : right.Ordered) :
    sameCell numerals collation left right = true ↔ cellOrder collation left right = .eq := by
  have notNull : ∀ {value : Value}, value.Ordered -> value.isNull = false := by
    rintro value ⟨number, isClass⟩
    cases value <;> first | rfl | cases isClass
  unfold sameCell Numerals.compareCells
  rw [notNull leftOrdered, notNull rightOrdered]
  simp only [Numerals.affinityConversion, Option.getD_none,
    classCompare_ok leftOrdered rightOrdered, ok_bind]
  cases cellOrder collation left right with
  | lt | gt => exact iff_of_false Bool.false_ne_true (by simp)
  | eq => exact iff_of_true rfl rfl

end Cells

theorem sameCells_iff (numerals : Numerals) {collations : List Collation} {position : Nat}
    {lefts rights : List Value} (leftOrdered : ∀ cell ∈ lefts, cell.Ordered)
    (rightOrdered : ∀ cell ∈ rights, cell.Ordered) :
    sameCells numerals collations position lefts rights = true ↔
      cellsOrder collations position lefts rights = .eq := by
  induction lefts generalizing position rights with
  | nil => cases rights <;> simp [sameCells, cellsOrder]
  | cons left lefts ih =>
    cases rights with
    | nil => simp [sameCells, cellsOrder]
    | cons right rights =>
      rw [forall_mem_cons] at leftOrdered rightOrdered
      rw [sameCells, cellsOrder, Bool.and_eq_true,
        sameCell_iff numerals leftOrdered.1 rightOrdered.1,
        ih leftOrdered.2 rightOrdered.2, Ordering.then_eq_eq]

/-! ## Encodings -/

/-- What an order says about two encodings, and they about it. -/
def Told (ordering : Ordering) (left right : Bytes) : Prop :=
  match ordering with
  | .lt => Below left right
  | .eq => left = right
  | .gt => Below right left

namespace Told

variable {ordering : Ordering} {left right : Bytes}

theorem of_encoded (encoded : Encoded ordering left right) (same : left = right -> ordering = .eq) :
    Told ordering left right := by
  cases ordering with
  | lt => exact encoded.resolve_left fun equal => nomatch same equal
  | eq => exact encoded
  | gt => exact encoded.resolve_left fun equal => nomatch same equal

section

variable (told : Told ordering left right)

include told

theorem append {later : Ordering} {lefts rights : Bytes} (rest : Told later lefts rights) :
    Told (ordering.then later) (left ++ lefts) (right ++ rights) := by
  cases ordering with
  | lt => exact Below.append_right told lefts rights
  | gt => exact Below.append_right told rights lefts
  | eq =>
    obtain rfl : left = right := told
    cases later with
    | lt => exact Below.append_left rest left
    | gt => exact Below.append_left rest left
    | eq => exact congrArg (left ++ ·) rest

theorem eq_iff : left = right ↔ ordering = .eq := by
  cases ordering with
  | lt => simpa using (Below.lt told).ne
  | eq => exact iff_of_true told rfl
  | gt => simpa using (Below.lt told).ne'

theorem lt_iff : left < right ↔ ordering = .lt := by
  cases ordering with
  | lt => simpa using Below.lt told
  | eq =>
    obtain rfl : left = right := told
    simp
  | gt => simpa using (Below.lt told).le

end

end Told

section Encodings

variable {collation : Collation} {left right : Value} {leftBytes rightBytes : Bytes}

theorem partialCmp_of_encodeValue_eq {bytes : Bytes} {low high : F64}
    (isLow : left.asF64 = some low) (isHigh : right.asF64 = some high)
    (isLeft : encodeValue collation left = .ok bytes)
    (isRight : encodeValue collation right = .ok bytes) :
    (low.partialCmp high).getD .eq = .eq := by
  obtain ⟨lowCode, isLowCode, rfl⟩ := encodeValue_number isLow isLeft
  obtain ⟨highCode, isHighCode, same⟩ := encodeValue_number isHigh isRight
  have codes : lowCode = highCode := by
    have digits := congrArg ofLe (reverse_injective (List.cons.inj same).2)
    rw [ofLe_leBytes lowCode.toNat_lt, ofLe_leBytes highCode.toNat_lt] at digits
    exact UInt64.toNat_inj.mp digits
  subst codes
  obtain ⟨-, lowOrder⟩ := totalOrder_spec isLowCode
  obtain ⟨-, highOrder⟩ := totalOrder_spec isHighCode
  have signed : low.signed = high.signed := by
    rcases lt_trichotomy low.signed high.signed with less | same | more
    · have := F64.orderCode_lt less
      omega
    · exact same
    · have := F64.orderCode_lt more
      omega
  rw [F64.partialCmp, signed]
  split
  · rfl
  · exact compare_eq_iff_eq.mpr rfl

theorem cellOrder_of_encodeValue_eq {bytes : Bytes}
    (isLeft : encodeValue collation left = .ok bytes)
    (isRight : encodeValue collation right = .ok bytes) :
    cellOrder collation left.rounded right.rounded = .eq := by
  have classes : ∀ {low high : Nat}, left.storageClass = some low ->
      right.storageClass = some high -> low = high := by
    intro low high isLow isHigh
    obtain ⟨lowSmall, lowRest, rfl⟩ := encodeValue_tag isLow isLeft
    obtain ⟨highSmall, highRest, same⟩ := encodeValue_tag isHigh isRight
    have tags := congrArg UInt8.toNat (List.cons.inj same).1
    rw [UInt8.toNat_ofNat', UInt8.toNat_ofNat'] at tags
    omega
  cases left <;> cases right <;>
    first
      | rfl
      | exact partialCmp_of_encodeValue_eq rfl rfl isLeft isRight
      | exact absurd (classes rfl rfl) (by decide)
      | skip
  · rename_i left right
    have folded := encodeBytes_injective
      (List.cons.inj ((Except.ok.inj isLeft).trans (Except.ok.inj isRight).symm)).2
    exact (Collation.compare_eq_eq collation left right).mpr folded
  · rename_i left right
    have same := encodeBytes_injective
      (List.cons.inj ((Except.ok.inj isLeft).trans (Except.ok.inj isRight).symm)).2
    exact (compareLex_eq_eq_iff left right).mpr same

theorem encodeValue_told (leftOrdered : left.Ordered) (rightOrdered : right.Ordered)
    (isLeft : encodeValue collation left = .ok leftBytes)
    (isRight : encodeValue collation right = .ok rightBytes) :
    Told (cellOrder collation left.rounded right.rounded) leftBytes rightBytes := by
  have fits : ∀ value : Value, value.rounded.Fits := by
    intro value
    cases value <;> trivial
  refine .of_encoded ?_ fun same => cellOrder_of_encodeValue_eq isLeft (same ▸ isRight)
  exact encodeValue_encoded (fits left) (fits right) ((encodeValue_rounded _ _).trans isLeft)
    ((encodeValue_rounded _ _).trans isRight)
    (classCompare_ok leftOrdered.rounded rightOrdered.rounded)

theorem encodeValues_told {collations : List Collation} {position : Nat} {lefts rights : List Value}
    (width : lefts.length = rights.length)
    (leftOrdered : ∀ cell ∈ lefts, cell.Ordered) (rightOrdered : ∀ cell ∈ rights, cell.Ordered)
    (isLeft : encodeValues collations position lefts = .ok leftBytes)
    (isRight : encodeValues collations position rights = .ok rightBytes) :
    Told (cellsOrder collations position (lefts.map Value.rounded) (rights.map Value.rounded))
      leftBytes rightBytes := by
  induction lefts generalizing position rights leftBytes rightBytes with
  | nil =>
    obtain rfl : rights = [] := length_eq_zero_iff.mp width.symm
    cases isLeft
    cases isRight
    exact (rfl : ([] : Bytes) = [])
  | cons left lefts ih =>
    obtain ⟨right, rights, rfl⟩ := exists_cons_of_length_eq_add_one width.symm
    rw [forall_mem_cons] at leftOrdered rightOrdered
    obtain ⟨leftFirst, leftRest, isLeftFirst, isLeftRest, rfl⟩ := encodeValues_cons isLeft
    obtain ⟨rightFirst, rightRest, isRightFirst, isRightRest, rfl⟩ := encodeValues_cons isRight
    exact (encodeValue_told leftOrdered.1 rightOrdered.1 isLeftFirst isRightFirst).append
      (ih (Nat.succ.inj width) leftOrdered.2 rightOrdered.2 isLeftRest isRightRest)

end Encodings

/-! ## Keys of rows -/

/-- The key cells of a row. -/
def keyCells (key : List Nat × List Collation) (row : Row) : List Value := key.1.map row.cell

/-- Whether two rows have equal keys, as the evaluator's `=` compares them. -/
def sameKey (numerals : Numerals) (key : List Nat × List Collation) (left right : Row) : Bool :=
  sameCells numerals key.2 0 (keyCells key left) (keyCells key right)

/-- The order of two rows by their keys. -/
def keyOrder (key : List Nat × List Collation) (left right : Row) : Ordering :=
  cellsOrder key.2 0 (keyCells key left) (keyCells key right)

/-- Whether a row comes before another in key order. -/
def rowBefore (key : List Nat × List Collation) (left right : Row) : Bool :=
  keyOrder key left right == .lt

/-- Rounding the integers of two keys to doubles leaves their order as it is. -/
def RoundingKeeps (key : List Nat × List Collation) (left right : Row) : Prop :=
  cellsOrder key.2 0 ((keyCells key left).map Value.rounded)
    ((keyCells key right).map Value.rounded) = keyOrder key left right

/-- A row whose key is complete and is stored under these bytes. -/
structure HasKey (key : List Nat × List Collation) (row : Row) (bytes : Bytes) : Prop where
  encoded : Engine.primaryKeyBytes key row = .ok bytes
  notNull : ∀ ordinal ∈ key.1, row.cell ordinal ≠ .null

section Keys

variable {key : List Nat × List Collation} {left right : Row} {leftBytes rightBytes : Bytes}

theorem RoundingKeeps.symm (keeps : RoundingKeeps key left right) : RoundingKeeps key right left := by
  unfold RoundingKeeps keyOrder at keeps ⊢
  rw [cellsOrder_swap, keeps, <- cellsOrder_swap]

theorem encodeValues_ordered {collations : List Collation} {position : Nat} {cells : List Value}
    {bytes : Bytes} (notNull : ∀ cell ∈ cells, cell ≠ .null)
    (encoded : encodeValues collations position cells = .ok bytes) :
    ∀ cell ∈ cells, cell.Ordered := by
  induction cells generalizing position bytes with
  | nil => exact fun cell member => nomatch member
  | cons first cells ih =>
    rw [forall_mem_cons] at notNull ⊢
    obtain ⟨firstBytes, rest, isFirst, isRest, -⟩ := encodeValues_cons encoded
    exact ⟨.of_encodeValue notNull.1 isFirst, ih notNull.2 isRest⟩

theorem HasKey.ordered (has : HasKey key left leftBytes) : ∀ cell ∈ keyCells key left, cell.Ordered := by
  refine encodeValues_ordered (fun cell member => ?_) has.encoded
  obtain ⟨ordinal, isKey, rfl⟩ := mem_map.mp member
  exact has.notNull ordinal isKey

section

variable (leftHas : HasKey key left leftBytes) (rightHas : HasKey key right rightBytes)
    (keeps : RoundingKeeps key left right)

include leftHas rightHas keeps

theorem HasKey.told : Told (keyOrder key left right) leftBytes rightBytes := by
  rw [<- keeps]
  exact encodeValues_told (by simp [keyCells]) leftHas.ordered rightHas.ordered leftHas.encoded
    rightHas.encoded

theorem HasKey.sameKey_eq (numerals : Numerals) :
    sameKey numerals key left right = decide (leftBytes = rightBytes) := by
  rw [Bool.eq_iff_iff, decide_eq_true_iff, (leftHas.told rightHas keeps).eq_iff]
  exact sameCells_iff numerals leftHas.ordered rightHas.ordered

theorem HasKey.rowBefore_eq : rowBefore key left right = decide (leftBytes < rightBytes) := by
  rw [Bool.eq_iff_iff, decide_eq_true_iff, (leftHas.told rightHas keeps).lt_iff, rowBefore,
    beq_iff_eq]

end

theorem HasKey.congr (has : HasKey key left leftBytes)
    (same : keyCells key right = keyCells key left) : HasKey key right leftBytes := by
  refine ⟨?_, fun ordinal isKey => ?_⟩
  · rw [<- has.encoded]
    exact congrArg (encodeValues key.2 0) same
  · rw [map_inj_left.mp same ordinal isKey]
    exact has.notNull ordinal isKey

theorem RoundingKeeps.congr (keeps : RoundingKeeps key left right) {row : Row}
    (same : keyCells key row = keyCells key left) : RoundingKeeps key row right := by
  unfold RoundingKeeps keyOrder at keeps ⊢
  rw [same, keeps]

theorem RoundingKeeps.of_same (same : keyCells key right = keyCells key left) :
    RoundingKeeps key left right := by
  have reflexive : ∀ (collations : List Collation) (position : Nat) (cells : List Value),
      cellsOrder collations position cells cells = .eq := by
    intro collations position cells
    have swapped := cellsOrder_swap collations position cells cells
    cases order : cellsOrder collations position cells cells with
    | eq => rfl
    | lt | gt =>
      rw [order] at swapped
      cases swapped
  unfold RoundingKeeps keyOrder
  rw [same, reflexive, reflexive]

end Keys

end InlaySql.Sql
