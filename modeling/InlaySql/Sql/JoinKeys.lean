import InlaySql.Sql.Join
import InlaySql.Sql.Namespaces

/-!
# Keys an `ON` calls equal

What an admitted pair says about the two columns of a join key, and which of the
engine's notions of equality follow: one bucket of a hash build, equal keys, one run of
an index. A `NaN` is the value they disagree about, since a comparison calls it equal to
every number.
-/

namespace InlaySql.Sql

open List Lib

/-! ## Doubles -/

namespace F64

theorem isZero_iff (value : F64) : value.isZero = true ↔ value.bits.toNat % 2 ^ 63 = 0 := by
  rw [isZero, beq_iff_eq, <- UInt64.toNat_inj, toNat_magnitude]
  simp

variable {left right : F64}

theorem signed_inj :
    left.signed = right.signed ↔ left = right ∨ left.isZero = true ∧ right.isZero = true := by
  have leftBound := left.bits.toNat_lt
  have rightBound := right.bits.toNat_lt
  rw [isZero_iff, isZero_iff, signed_eq, signed_eq]
  have ext : left = right ↔ left.bits.toNat = right.bits.toNat := by
    rw [UInt64.toNat_inj]
    exact ⟨fun same => same ▸ rfl, fun same => by cases left; cases right; simp_all⟩
  rw [ext]
  split <;> split <;> omega

theorem eq_iff : left.eq right = true ↔
    left.isNan = false ∧ right.isNan = false ∧ left.signed = right.signed := by
  rw [signed_inj]
  simp [eq, and_assoc]

theorem eq_comm (left right : F64) : left.eq right = right.eq left := by
  rw [Bool.eq_iff_iff, eq_iff, eq_iff]
  constructor
  · rintro ⟨leftNumber, rightNumber, same⟩
    exact ⟨rightNumber, leftNumber, same.symm⟩
  · rintro ⟨leftNumber, rightNumber, same⟩
    exact ⟨rightNumber, leftNumber, same.symm⟩

theorem plusZero_eq (same : left.eq right = true) : left.plusZero = right.plusZero := by
  obtain ⟨-, -, same⟩ := eq_iff.mp same
  rcases signed_inj.mp same with rfl | ⟨leftZero, rightZero⟩
  · rfl
  · rw [plusZero, plusZero, if_pos leftZero, if_pos rightZero]

theorem partialCmp_eq : (left.partialCmp right).getD .eq = .eq ↔
    left.isNan = true ∨ right.isNan = true ∨ left.eq right = true := by
  rw [eq_iff, partialCmp]
  cases left.isNan <;> cases right.isNan <;> simp

theorem toI64_lt (value : F64) : value.toI64 < 2 ^ 63 := by
  unfold toI64
  simp only
  split
  · decide
  · split <;> omega

end F64

/-! ## Equal under a comparison -/

/-- `a = b` of two columns, as the evaluator decides it. -/
def CalledEqual (env : Env) (affinity : CompareAffinity) (collation : Collation)
    (outer inner : Value) : Prop :=
  outer ≠ .null ∧ inner ≠ .null ∧
    Compared (converted env affinity outer) (converted env affinity inner) collation .eq

/-- A key that is a `NaN`. -/
def Value.isNanKey : Value -> Bool
  | .real number => number.isNan
  | _ => false

theorem compareLex_eq_eq_iff (left right : Bytes) :
    List.compareLex Ord.compare left right = .eq ↔ left = right := by
  exact @Std.LawfulEqCmp.compare_eq_iff_eq _ (List.compareLex Ord.compare) _ left right

theorem Collation.compare_eq_eq (collation : Collation) (left right : String) :
    collation.compare left right = .eq ↔
      collation.fold (utf8 left) = collation.fold (utf8 right) := by
  rw [Collation.compare_eq]
  exact compareLex_eq_eq_iff _ _

variable {collation : Collation} {ty : DataType} {left right outer inner : Value}

theorem keysEqual_text {left right : String} :
    keysEqual (.text left) (.text right) collation = true ↔
      collation.fold (utf8 left) = collation.fold (utf8 right) := by
  unfold keysEqual
  cases collation with
  | binary =>
    simp only [Value.isNull, Collation.fold]
    constructor
    · intro same
      rw [show left = right by simpa using same]
    · intro same
      simpa using utf8_injective same
  | noCase => simp [Value.isNull]
  | rTrim => simp [Value.isNull]

theorem keysEqual_integer {left right : Int} :
    keysEqual (.integer left) (.integer right) collation = true ↔ left = right :=
  beq_iff_eq

theorem keysEqual_real (collation : Collation) (left right : F64) :
    keysEqual (.real left) (.real right) collation = left.eq right := rfl

theorem keysEqual_blob {left right : Bytes} :
    keysEqual (.blob left) (.blob right) collation = true ↔ left = right :=
  beq_iff_eq

theorem encodeBytes_injective : Function.Injective encodeBytes := by
  intro left right same
  induction left generalizing right with
  | nil =>
    cases right with
    | nil => rfl
    | cons byte right => exact absurd same (below_encodeBytes_nil byte right).lt.ne
  | cons byte left ih =>
    cases right with
    | nil => exact absurd same.symm (below_encodeBytes_nil byte left).lt.ne
    | cons other right =>
      rw [encodeBytes_cons, encodeBytes_cons] at same
      have head : byte = other ∧ encodeBytes left = encodeBytes right := by
        split at same <;> split at same <;> simp_all
      rw [head.1, ih head.2]

/-- A value of a storage class that is not `NULL`. -/
inductive OfClass : DataType -> Value -> Prop
  | integer (number : Int) : OfClass .integer (.integer number)
  | real (number : F64) : OfClass .real (.real number)
  | text (text : String) : OfClass .text (.text text)
  | blob (bytes : Bytes) : OfClass .blob (.blob bytes)

theorem OfClass.of_conforms {value : Value} (isClass : ty.isStorageClass = true)
    (conforms : Conforms ty value) (notNull : value ≠ .null) : OfClass ty value := by
  cases ty with
  | integer =>
    obtain ⟨number, rfl⟩ : ∃ number, value = .integer number := by
      cases value <;> first | exact absurd rfl notNull | exact conforms
    exact .integer number
  | real =>
    obtain ⟨number, rfl⟩ : ∃ number, value = .real number := by
      cases value <;> first | exact absurd rfl notNull | exact conforms
    exact .real number
  | text =>
    obtain ⟨text, rfl⟩ : ∃ text, value = .text text := by
      cases value <;> first | exact absurd rfl notNull | exact conforms
    exact .text text
  | blob =>
    obtain ⟨bytes, rfl⟩ : ∃ bytes, value = .blob bytes := by
      cases value <;> first | exact absurd rfl notNull | exact conforms
    exact .blob bytes
  | numeric | vector | quantizedVector | any => cases isClass

theorem OfClass.converted (env : Env) {value : Value} (ofClass : OfClass ty value) :
    converted env (combineAffinity (columnAffinity ty) (columnAffinity ty)) value = value := by
  cases ofClass <;> rfl

theorem Compared.eq_iff : Compared left right collation .eq ↔
      classCompare left right collation = .ok .eq ∨ classCompare right left collation = .ok .eq :=
  Iff.rfl

section

variable (leftClass : OfClass ty left) (rightClass : OfClass ty right) (collation : Collation)

include leftClass rightClass

theorem OfClass.classCompare_iff : classCompare left right collation = .ok .eq ↔
      left.isNanKey = true ∨ right.isNanKey = true ∨ keysEqual left right collation = true := by
  cases leftClass with
  | integer left =>
    obtain ⟨right, rfl⟩ : ∃ number, right = .integer number := by
      cases rightClass
      exact ⟨_, rfl⟩
    change Except.ok (compare left right) = Except.ok Ordering.eq ↔ _
    rw [Except.ok.injEq, compare_eq_iff_eq, keysEqual_integer]
    simp [Value.isNanKey]
  | real left =>
    obtain ⟨right, rfl⟩ : ∃ number, right = .real number := by
      cases rightClass
      exact ⟨_, rfl⟩
    change Except.ok ((left.partialCmp right).getD .eq) = Except.ok Ordering.eq ↔ _
    rw [Except.ok.injEq, F64.partialCmp_eq, keysEqual_real]
    rfl
  | text left =>
    obtain ⟨right, rfl⟩ : ∃ text, right = .text text := by
      cases rightClass
      exact ⟨_, rfl⟩
    change Except.ok (collation.compare left right) = Except.ok Ordering.eq ↔ _
    rw [Except.ok.injEq, Collation.compare_eq_eq, keysEqual_text]
    simp [Value.isNanKey]
  | blob left =>
    obtain ⟨right, rfl⟩ : ∃ bytes, right = .blob bytes := by
      cases rightClass
      exact ⟨_, rfl⟩
    change Except.ok (List.compareLex Ord.compare left right) = Except.ok Ordering.eq ↔ _
    rw [Except.ok.injEq, compareLex_eq_eq_iff, keysEqual_blob]
    simp [Value.isNanKey]

theorem OfClass.keysEqual_comm :
    keysEqual left right collation = keysEqual right left collation := by
  rw [Bool.eq_iff_iff]
  cases leftClass <;> cases rightClass
  · rw [keysEqual_integer, keysEqual_integer, eq_comm]
  · rw [keysEqual_real, keysEqual_real, F64.eq_comm]
  · rw [keysEqual_text, keysEqual_text, eq_comm]
  · rw [keysEqual_blob, keysEqual_blob, eq_comm]

end

section

variable (outerClass : OfClass ty outer) (innerClass : OfClass ty inner)

include outerClass innerClass

theorem OfClass.compared_iff (collation : Collation) : Compared outer inner collation .eq ↔
      outer.isNanKey = true ∨ inner.isNanKey = true ∨ keysEqual outer inner collation = true := by
  rw [Compared.eq_iff, outerClass.classCompare_iff innerClass, innerClass.classCompare_iff outerClass,
    innerClass.keysEqual_comm outerClass]
  tauto

theorem OfClass.not_keysEqual (isNan : outer.isNanKey = true ∨ inner.isNanKey = true) :
    keysEqual outer inner collation = false := by
  cases outerClass <;> cases innerClass <;> simp [Value.isNanKey] at isNan
  rename_i left right
  rw [keysEqual_real, F64.eq]
  rcases isNan with isNan | isNan <;> simp [isNan]

theorem OfClass.hashValue_eq (same : keysEqual outer inner collation = true) :
    hashValue collation outer = hashValue collation inner := by
  cases outerClass with
  | integer left =>
    obtain ⟨right, rfl⟩ : ∃ right, inner = .integer right := by cases innerClass; exact ⟨_, rfl⟩
    rw [keysEqual_integer.mp same]
  | real left =>
    obtain ⟨right, rfl⟩ : ∃ right, inner = .real right := by cases innerClass; exact ⟨_, rfl⟩
    rw [keysEqual_real] at same
    simp only [hashValue, F64.plusZero_eq same]
  | text left =>
    obtain ⟨right, rfl⟩ : ∃ right, inner = .text right := by cases innerClass; exact ⟨_, rfl⟩
    simp only [hashValue, keysEqual_text.mp same]
  | blob left =>
    obtain ⟨right, rfl⟩ : ∃ right, inner = .blob right := by cases innerClass; exact ⟨_, rfl⟩
    rw [keysEqual_blob.mp same]

end

/-! ## Keys of an `ON` that is true -/

section Keys

variable {env : Env} {scope : Table} {outer row : Row}

/-- The affinity of the comparison of a join key. -/
def JoinKey.affinity (scope : Table) (offset : Nat) (key : JoinKey) : CompareAffinity :=
  combineAffinity (scope.affinityAt key.outer) (scope.affinityAt (offset + key.inner))

/-- The columns of a join key are called equal. -/
def JoinKey.Equal (env : Env) (scope : Table) (outer row : Row) (key : JoinKey) : Prop :=
  ∃ outerCell innerCell, outer[key.outer]? = some outerCell ∧ row[key.inner]? = some innerCell ∧
    CalledEqual env (key.affinity scope outer.length) key.collation outerCell innerCell

variable {width : Nat} {collation : Collation} {affinity : CompareAffinity} {key : JoinKey}

theorem mem_collectJoinKeys_eq {offset : Nat} {left right : Expr} :
    key ∈ collectJoinKeys offset width (.binary .eq left right collation affinity) ↔
      key.outer < offset ∧ key.inner < width ∧ key.collation = collation ∧
        (left.withoutCollate = .column key.outer ∧
            right.withoutCollate = .column (offset + key.inner) ∨
          right.withoutCollate = .column key.outer ∧
            left.withoutCollate = .column (offset + key.inner)) := by
  unfold collectJoinKeys
  split
  · rename_i leftOrdinal rightOrdinal isLeft isRight
    rw [isLeft, isRight]
    simp only [Expr.column.injEq]
    split
    · rename_i inside
      rw [mem_singleton]
      constructor
      · rintro rfl
        exact ⟨inside.1, by simp only []; omega, rfl, .inl ⟨rfl, by simp only []; omega⟩⟩
      · rintro ⟨small, -, rfl, ⟨rfl, rfl⟩ | ⟨rfl, rfl⟩⟩
        · cases key
          simp
        · omega
    · rename_i outside
      split
      · rename_i inside
        rw [mem_singleton]
        constructor
        · rintro rfl
          exact ⟨inside.1, by simp only []; omega, rfl, .inr ⟨rfl, by simp only []; omega⟩⟩
        · rintro ⟨small, -, rfl, ⟨rfl, rfl⟩ | ⟨rfl, rfl⟩⟩
          · omega
          · cases key
            simp
      · rename_i noneInside
        simp only [not_mem_nil, false_iff]
        rintro ⟨small, bounded, rfl, ⟨rfl, rfl⟩ | ⟨rfl, rfl⟩⟩
        · exact outside ⟨small, by omega, by omega⟩
        · exact noneInside ⟨small, by omega, by omega⟩
  · rename_i noColumns
    simp only [not_mem_nil, false_iff]
    rintro ⟨-, -, -, ⟨isLeft, isRight⟩ | ⟨isRight, isLeft⟩⟩
    · exact noColumns _ _ isLeft isRight
    · exact noColumns _ _ isLeft isRight

theorem mem_collectJoinKeys {offset : Nat} {on : Expr}
    (member : key ∈ collectJoinKeys offset width on) : key.outer < offset ∧ key.inner < width := by
  induction on with
  | literal | param | column | collate | between | other => cases member
  | binary op left right collation affinity leftIh rightIh =>
    cases op with
    | and => exact (mem_append.mp member).elim leftIh rightIh
    | eq =>
      obtain ⟨small, bounded, -, -⟩ := mem_collectJoinKeys_eq.mp member
      exact ⟨small, bounded⟩
    | notEq | lt | ltEq | gt | gtEq | add | sub | mul | div | mod | or | concat
    | jsonExtractJson | jsonExtractText => cases member

theorem collectJoinKeys_equal {on : Expr} {value : Value} (planned : on.Planned scope)
    (evaluated : on.evaluate env (outer ++ row) = .ok value)
    (truthy : env.numerals.isTruthy value = true)
    (member : key ∈ collectJoinKeys outer.length width on) : key.Equal env scope outer row := by
  induction on generalizing value with
  | literal | param | column | collate | between | other => cases member
  | binary op left right collation affinity leftIh rightIh =>
    obtain ⟨leftPlanned, rightPlanned, isAffinity⟩ := planned
    obtain ⟨leftValue, isLeft, evaluated⟩ := bind_eq_ok evaluated
    obtain ⟨rightValue, isRight, evaluated⟩ := bind_eq_ok evaluated
    cases op with
    | and =>
      obtain rfl := Except.ok.inj evaluated
      obtain ⟨leftTruthy, rightTruthy⟩ := isTruthy_logicalAnd.mp truthy
      rcases mem_append.mp member with member | member
      · exact leftIh leftPlanned isLeft leftTruthy member
      · exact rightIh rightPlanned isRight rightTruthy member
    | eq =>
      obtain ⟨small, -, rfl, shape⟩ := mem_collectJoinKeys_eq.mp member
      obtain ⟨leftNotNull, rightNotNull, ordering, compared, decided⟩ :=
        compareCells_truthy evaluated truthy
      obtain rfl : ordering = .eq := by
        cases ordering <;> first | rfl | cases decided
      rw [isAffinity rfl] at compared
      rcases shape with ⟨leftColumn, rightColumn⟩ | ⟨rightColumn, leftColumn⟩
      · obtain ⟨leftFound, leftAffinity⟩ := evaluate_column scope leftColumn isLeft
        obtain ⟨rightFound, rightAffinity⟩ := evaluate_column scope rightColumn isRight
        rw [getElem?_append_left small] at leftFound
        rw [getElem?_append_right (Nat.le_add_right _ _), Nat.add_sub_cancel_left] at rightFound
        rw [compareAffinity, leftAffinity, rightAffinity] at compared
        exact ⟨leftValue, rightValue, leftFound, rightFound, leftNotNull, rightNotNull,
          .inl compared⟩
      · obtain ⟨leftFound, leftAffinity⟩ := evaluate_column scope leftColumn isLeft
        obtain ⟨rightFound, rightAffinity⟩ := evaluate_column scope rightColumn isRight
        rw [getElem?_append_left small] at rightFound
        rw [getElem?_append_right (Nat.le_add_right _ _), Nat.add_sub_cancel_left] at leftFound
        rw [compareAffinity, leftAffinity, rightAffinity, combineAffinity_comm] at compared
        exact ⟨rightValue, leftValue, rightFound, leftFound, rightNotNull, leftNotNull,
          .inr compared⟩
    | notEq | lt | ltEq | gt | gtEq | add | sub | mul | div | mod | or | concat
    | jsonExtractJson | jsonExtractText => cases member

theorem evaluate_of_column {expr : Expr} {ordinal : Nat} {value : Value}
    (isColumn : expr.withoutCollate = .column ordinal) (found : row[ordinal]? = some value) :
    expr.evaluate env row = .ok value ∧ expr.affinityOf scope = scope.affinityAt ordinal := by
  rw [<- evaluate_withoutCollate, <- affinityOf_withoutCollate, isColumn]
  refine ⟨?_, rfl⟩
  rw [Expr.evaluate, found]

theorem admits_of_keysEqual {left right : Expr} {outerCell innerCell : Value}
    (planned : (Expr.binary .eq left right collation affinity).Planned scope)
    (member : key ∈ collectJoinKeys outer.length width
      (.binary .eq left right collation affinity)) (isOuter : outer[key.outer]? = some outerCell)
    (isInner : row[key.inner]? = some innerCell)
    (outerAffinity : scope.affinityAt key.outer = columnAffinity ty)
    (innerAffinity : scope.affinityAt (outer.length + key.inner) = columnAffinity ty)
    (outerClass : OfClass ty outerCell) (innerClass : OfClass ty innerCell)
    (same : keysEqual outerCell innerCell key.collation = true) :
    (Expr.binary .eq left right collation affinity).admits env (outer ++ row) = true := by
  obtain ⟨-, -, isAffinity⟩ := planned
  obtain ⟨small, -, rfl, shape⟩ := mem_collectJoinKeys_eq.mp member
  have outerFound : (outer ++ row)[key.outer]? = some outerCell := by
    rwa [getElem?_append_left small]
  have innerFound : (outer ++ row)[outer.length + key.inner]? = some innerCell := by
    rwa [getElem?_append_right (Nat.le_add_right _ _), Nat.add_sub_cancel_left]
  have isNull : ∀ {value : Value}, OfClass ty value -> value.isNull = false := by
    intro value ofClass
    cases ofClass <;> rfl
  -- Either way round, the comparison is of the two keys as they are.
  have compared : ∀ {first second : Value}, OfClass ty first -> OfClass ty second ->
      keysEqual first second key.collation = true ->
      env.numerals.compareCells .eq first second key.collation
        (combineAffinity (columnAffinity ty) (columnAffinity ty)) = .ok (.integer 1) := by
    intro first second firstClass secondClass equal
    have isEq := (firstClass.classCompare_iff secondClass key.collation).mpr (.inr (.inr equal))
    have firstSame := firstClass.converted env
    have secondSame := secondClass.converted env
    unfold Sql.converted at firstSame secondSame
    rw [Numerals.compareCells, isNull firstClass, isNull secondClass]
    simp only [firstSame, secondSame, isEq, ok_bind]
    rfl
  rw [admits_eq_true]
  refine ⟨.integer 1, ?_, rfl⟩
  rcases shape with ⟨leftColumn, rightColumn⟩ | ⟨rightColumn, leftColumn⟩
  · obtain ⟨isLeft, leftAffinity⟩ := @evaluate_of_column env scope _ _ _ _ leftColumn outerFound
    obtain ⟨isRight, rightAffinity⟩ := @evaluate_of_column env scope _ _ _ _ rightColumn innerFound
    rw [Expr.evaluate, isLeft, ok_bind, isRight, ok_bind, isAffinity rfl, compareAffinity,
      leftAffinity, rightAffinity, outerAffinity, innerAffinity]
    exact compared outerClass innerClass same
  · obtain ⟨isLeft, leftAffinity⟩ := @evaluate_of_column env scope _ _ _ _ leftColumn innerFound
    obtain ⟨isRight, rightAffinity⟩ := @evaluate_of_column env scope _ _ _ _ rightColumn outerFound
    rw [Expr.evaluate, isLeft, ok_bind, isRight, ok_bind, isAffinity rfl, compareAffinity,
      leftAffinity, rightAffinity, outerAffinity, innerAffinity]
    rw [outerClass.keysEqual_comm innerClass] at same
    exact compared innerClass outerClass same

end Keys

end InlaySql.Sql
