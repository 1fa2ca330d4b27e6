import InlaySql.Eval.Cells
import InlaySql.Lib.Preorder
import InlaySql.Sql.IndexOrder

/-!
# The order of values

`ORDER BY`, `GROUP BY`, `DISTINCT` and the extremes share one comparator: storage class
first, and within a class the contents. Two integers compare exactly and an integer and a
real as doubles, so a real can equal two integers that differ; a `NaN` equals every
number. On values without such company the comparator is a total preorder.
-/

namespace InlaySql.Eval

open Lib Sql

/-- Two values of one storage class. -/
def compareContents (left right : Value) (collation : Collation) : Ordering :=
  match left, right with
  | .integer left, .integer right => compare left right
  | .text left, .text right => collation.compare left right
  | .blob left, .blob right => List.compareLex compare left right
  | .vector left, .vector right => compare left.length right.length
  -- One side is a real.
  | left, right =>
    match left.asF64, right.asF64 with
    | some left, some right => (left.partialCmp right).getD .eq
    | _, _ => .eq

def memCmp (left right : Value) (collation : Collation) : Ordering :=
  match compare (classRank left) (classRank right) with
  | .eq => compareContents left right collation
  | decided => decided

theorem memCmp_eq (left right : Value) (collation : Collation) : memCmp left right collation =
      (compare (classRank left) (classRank right)).then (compareContents left right collation) := by
  unfold memCmp
  cases compare (classRank left) (classRank right) <;> rfl

/-- A value a column of another type than `VECTOR` can hold. -/
def Plain : Value -> Prop
  | .integer value => (Value.integer value).Fits
  | .vector _ => False
  | .null | .real _ | .text _ | .blob _ => True

/-- Values among which no comparison through doubles is at odds with an exact one. -/
structure Separated (domain : Set Value) : Prop where
  /-- A real equals at most one of the integers. -/
  integers : ∀ first second real, .integer first ∈ domain -> .integer second ∈ domain ->
    .real real ∈ domain -> (F64.ofInt first).eq real = true ->
    (F64.ofInt second).eq real = true -> first = second
  /-- Beside a `NaN` the integers are one. -/
  nanIntegers : ∀ nan first second, .real nan ∈ domain -> nan.isNan = true ->
    .integer first ∈ domain -> .integer second ∈ domain -> first = second
  /-- Beside a `NaN` the integer and the other reals are equal. -/
  nanMixed : ∀ nan integer real, .real nan ∈ domain -> nan.isNan = true ->
    .integer integer ∈ domain -> .real real ∈ domain -> real.isNan = false ->
    (F64.ofInt integer).eq real = true
  /-- Beside a `NaN` the other reals are equal. -/
  nanReals : ∀ nan first second, .real nan ∈ domain -> nan.isNan = true ->
    .real first ∈ domain -> .real second ∈ domain -> first.isNan = false ->
    second.isNan = false -> first.eq second = true

/-! ## Within a class -/

section Contents

variable {collation : Collation} {domain : Set Value}

theorem partialCmp_of_numbers {left right : F64} (leftNumber : left.isNan = false)
    (rightNumber : right.isNan = false) :
    (left.partialCmp right).getD .eq = compare left.signed right.signed := by
  simp [F64.partialCmp, leftNumber, rightNumber]

theorem ofInt_isNan {value : Int} (fits : (Value.integer value).Fits) :
    (F64.ofInt value).isNan = false :=
  (F64.signed_ofInt fits.natAbs_le).1

/-- The double a number compares through, as its signed magnitude. -/
def numberKey (value : Value) : Int := (value.asF64.map F64.signed).getD 0

/-- Two numbers with one double: integers decide exactly. -/
def numberTie (left right : Value) : Ordering :=
  match left, right with
  | .integer left, .integer right => compare left right
  | _, _ => .eq

/-- A number that is not a `NaN`. -/
inductive IsNumber : Value -> Prop
  | integer {value : Int} (fits : (Value.integer value).Fits) : IsNumber (.integer value)
  | real {value : F64} (number : value.isNan = false) : IsNumber (.real value)

theorem compareContents_numbers {left right : Value} (isLeft : IsNumber left)
    (isRight : IsNumber right) :
    compareContents left right collation =
      (compare (numberKey left) (numberKey right)).then (numberTie left right) := by
  cases isLeft with
  | real leftNumber =>
    cases isRight with
    | real rightNumber =>
      simp only [compareContents, Value.asF64, partialCmp_of_numbers leftNumber rightNumber]
      exact Ordering.then_eq.symm
    | integer rightFits =>
      simp only [compareContents, Value.asF64,
        partialCmp_of_numbers leftNumber (ofInt_isNan rightFits)]
      exact Ordering.then_eq.symm
  | @integer left leftFits =>
    cases isRight with
    | real rightNumber =>
      simp only [compareContents, Value.asF64,
        partialCmp_of_numbers (ofInt_isNan leftFits) rightNumber]
      exact Ordering.then_eq.symm
    | @integer right rightFits =>
      change compare left right = (compare (F64.ofInt left).signed
        (F64.ofInt right).signed).then (compare left right)
      rcases lt_trichotomy left right with less | rfl | more
      · have mono := F64.signed_ofInt_mono leftFits.natAbs_le rightFits.natAbs_le less.le
        rcases lt_or_eq_of_le mono with below | same
        · rw [compare_lt_iff_lt.mpr below, compare_lt_iff_lt.mpr less]
          rfl
        · rw [same, compare_eq_iff_eq.mpr rfl]
          rfl
      · rw [compare_eq_iff_eq.mpr rfl, compare_eq_iff_eq.mpr rfl]
        rfl
      · have mono := F64.signed_ofInt_mono rightFits.natAbs_le leftFits.natAbs_le more.le
        rcases lt_or_eq_of_le mono with below | same
        · rw [compare_gt_iff_gt.mpr below, compare_gt_iff_gt.mpr more]
          rfl
        · rw [same, compare_eq_iff_eq.mpr rfl]
          rfl

/-- The integer of a value that is one. -/
def integerOf : Value -> Int
  | .integer value => value
  | _ => 0

/-- The bytes of a text, as its collation compares them. -/
def textBytes (collation : Collation) : Value -> Bytes
  | .text text => collation.fold (utf8 text)
  | _ => []

/-- The bytes of a blob. -/
def blobBytes : Value -> Bytes
  | .blob bytes => bytes
  | _ => []

theorem preorderOn_numbers {numbers : Set Value} (separated : Separated domain)
    (within : numbers ⊆ domain) (isNumber : ∀ value ∈ numbers, IsNumber value) :
    PreorderOn (fun left right => compareContents left right collation) numbers := by
  have ranked : PreorderOn (fun left right =>
      (compare (numberKey left) (numberKey right)).then (numberTie left right)) numbers := by
    refine .byRank fun key => ?_
    by_cases mixed : ∃ real, Value.real real ∈ numbers ∧ numberKey (.real real) = key
    · obtain ⟨real, inNumbers, isKey⟩ := mixed
      refine (preorderOn_eq _).congr ?_
      rintro left ⟨inLeft, leftKey⟩ right ⟨inRight, rightKey⟩
      have equals : ∀ {integer}, Value.integer integer ∈ numbers ->
          numberKey (.integer integer) = key -> (F64.ofInt integer).eq real = true := by
        intro integer inside itsKey
        have fits := isNumber _ inside
        cases fits with
        | integer fits =>
          cases isNumber _ inNumbers with
          | real number =>
            exact F64.eq_iff.mpr ⟨ofInt_isNan fits, number, itsKey.trans isKey.symm⟩
      cases left with
      | integer left =>
        cases right with
        | integer right =>
          rw [separated.integers left right real (within inLeft) (within inRight)
            (within inNumbers) (equals inLeft leftKey) (equals inRight rightKey)]
          exact compare_eq_iff_eq.mpr rfl
        | null | real | text | blob | vector => rfl
      | null | real | text | blob | vector => rfl
    · have integers : PreorderOn (fun left right : Value =>
          compare (integerOf left) (integerOf right))
          {value | value ∈ numbers ∧ numberKey value = key} :=
        (preorderOn_compare Set.univ).comap integerOf fun _ _ => trivial
      refine integers.congr ?_
      rintro left ⟨inLeft, leftKey⟩ right ⟨inRight, rightKey⟩
      cases isNumber left inLeft with
      | real number => exact absurd ⟨_, inLeft, leftKey⟩ mixed
      | integer leftFits =>
        cases isNumber right inRight with
        | real number => exact absurd ⟨_, inRight, rightKey⟩ mixed
        | integer rightFits => rfl
  exact ranked.congr fun left inLeft right inRight =>
    compareContents_numbers (isNumber left inLeft) (isNumber right inRight)

theorem compareContents_of_nan (separated : Separated domain) {nan : F64} (inDomain : .real nan ∈ domain)
    (isNan : nan.isNan = true) {left right : Value} (inLeft : left ∈ domain)
    (inRight : right ∈ domain) (leftClass : classRank left = 1) (rightClass : classRank right = 1) :
    compareContents left right collation = .eq := by
  have mixed : ∀ {integer real}, Value.integer integer ∈ domain -> Value.real real ∈ domain ->
      real.isNan = true ∨ (F64.ofInt integer).eq real = true := by
    intro integer real inInteger inReal
    cases kind : real.isNan with
    | true => exact .inl rfl
    | false => exact .inr (separated.nanMixed nan integer real inDomain isNan inInteger inReal kind)
  cases left with
  | integer left =>
    cases right with
    | integer right =>
      rw [separated.nanIntegers nan left right inDomain isNan inLeft inRight]
      exact compare_eq_iff_eq.mpr rfl
    | real right => exact F64.partialCmp_eq.mpr (.inr (mixed inLeft inRight))
    | null | text | blob | vector => cases rightClass
  | real left =>
    cases right with
    | integer right =>
      rcases mixed inRight inLeft with nan | same
      · exact F64.partialCmp_eq.mpr (.inl nan)
      · exact F64.partialCmp_eq.mpr (.inr (.inr (by rw [F64.eq_comm, same])))
    | real right =>
      refine F64.partialCmp_eq.mpr ?_
      cases leftKind : left.isNan with
      | true => exact .inl rfl
      | false =>
        cases rightKind : right.isNan with
        | true => exact .inr (.inl rfl)
        | false =>
          exact .inr (.inr (separated.nanReals nan left right inDomain isNan inLeft
            inRight leftKind rightKind))
    | null | text | blob | vector => cases rightClass
  | null | text | blob | vector => cases leftClass

theorem preorderOn_bytes (bytes : Set Bytes) : PreorderOn (List.compareLex compare) bytes where
  swap _ _ _ _ := Std.OrientedCmp.eq_swap
  trans _ _ _ _ _ _ := Std.TransCmp.isLE_trans

theorem preorderOn_contents (separated : Separated domain)
    (plain : ∀ value ∈ domain, Plain value) (rank : Nat) :
    PreorderOn (fun left right => compareContents left right collation)
      {value | value ∈ domain ∧ classRank value = rank} := by
  rcases rank with _ | _ | _ | _ | rank
  · refine (preorderOn_eq _).congr ?_
    rintro left ⟨-, leftClass⟩ right -
    cases left with
    | null => cases right <;> rfl
    | integer | real | text | blob | vector => cases leftClass
  · by_cases nan : ∃ nan, Value.real nan ∈ domain ∧ nan.isNan = true
    · obtain ⟨nan, inDomain, isNan⟩ := nan
      refine (preorderOn_eq _).congr ?_
      rintro left ⟨inLeft, leftClass⟩ right ⟨inRight, rightClass⟩
      exact compareContents_of_nan separated inDomain isNan inLeft inRight leftClass rightClass
    · refine preorderOn_numbers separated (fun value member => member.1) ?_
      rintro value ⟨inDomain, isClass⟩
      cases value with
      | integer value => exact .integer (plain _ inDomain)
      | real value =>
        refine .real ?_
        cases kind : value.isNan with
        | false => rfl
        | true => exact absurd ⟨value, inDomain, kind⟩ nan
      | null | text | blob | vector => cases isClass
  · refine ((preorderOn_bytes Set.univ).comap (textBytes collation) fun _ _ => trivial).congr ?_
    rintro left ⟨-, leftClass⟩ right ⟨-, rightClass⟩
    cases left with
    | text left =>
      cases right with
      | text right => exact collation.compare_eq left right
      | null | integer | real | blob | vector => cases rightClass
    | null | integer | real | blob | vector => cases leftClass
  · refine ((preorderOn_bytes Set.univ).comap blobBytes fun _ _ => trivial).congr ?_
    rintro left ⟨-, leftClass⟩ right ⟨-, rightClass⟩
    cases left with
    | blob left =>
      cases right with
      | blob right => rfl
      | null | integer | real | text | vector => cases rightClass
    | null | integer | real | text | vector => cases leftClass
  · constructor
    · rintro left ⟨inLeft, leftClass⟩ right -
      have isPlain := plain left inLeft
      cases left with
      | vector lanes => exact isPlain.elim
      | null | integer | real | text | blob => simp [classRank] at leftClass
    · rintro low ⟨inLow, lowClass⟩ mid - high -
      have isPlain := plain low inLow
      cases low with
      | vector lanes => exact isPlain.elim
      | null | integer | real | text | blob => simp [classRank] at lowClass

end Contents

/-! ## The order -/

section Order

variable {collation : Collation} {domain : Set Value}

theorem preorderOn_memCmp (separated : Separated domain) (plain : ∀ value ∈ domain, Plain value) :
    PreorderOn (fun left right => memCmp left right collation) domain :=
  (PreorderOn.byRank (preorderOn_contents separated plain)).congr fun left _ right _ =>
    memCmp_eq left right collation

theorem separated_of_preorderOn (order : PreorderOn (fun left right => memCmp left right collation)
    domain) (plain : ∀ value ∈ domain, Plain value) : Separated domain := by
  have integers : ∀ {first second other}, Value.integer first ∈ domain ->
      Value.integer second ∈ domain -> other ∈ domain ->
      memCmp (.integer first) other collation = .eq ->
      memCmp other (.integer second) collation = .eq -> first = second := by
    intro first second other inFirst inSecond inOther same also
    exact compare_eq_iff_eq.mp (order.eq_trans inFirst inOther inSecond same also)
  have realLeft : ∀ {integer real}, (F64.ofInt integer).eq real = true ∨ real.isNan = true ->
      memCmp (.integer integer) (.real real) collation = .eq ∧
        memCmp (.real real) (.integer integer) collation = .eq := by
    rintro integer real (same | nan)
    · exact ⟨F64.partialCmp_eq.mpr (.inr (.inr same)),
        F64.partialCmp_eq.mpr (.inr (.inr (by rw [F64.eq_comm, same])))⟩
    · exact ⟨F64.partialCmp_eq.mpr (.inr (.inl nan)), F64.partialCmp_eq.mpr (.inl nan)⟩
  constructor
  · intro first second real inFirst inSecond inReal same also
    exact integers inFirst inSecond inReal (realLeft (.inl same)).1 (realLeft (.inl also)).2
  · intro nan first second inNan isNan inFirst inSecond
    exact integers inFirst inSecond inNan (realLeft (.inr isNan)).1 (realLeft (.inr isNan)).2
  · intro nan integer real inNan isNan inInteger inReal isReal
    have chained := order.eq_trans inInteger inNan inReal (realLeft (.inr isNan)).1
      (F64.partialCmp_eq.mpr (.inl isNan))
    rcases F64.partialCmp_eq.mp chained with integerNan | realNan | same
    · rw [ofInt_isNan (plain _ inInteger)] at integerNan
      cases integerNan
    · rw [isReal] at realNan
      cases realNan
    · exact same
  · intro nan first second inNan isNan inFirst inSecond isFirst isSecond
    have chained := order.eq_trans inFirst inNan inSecond
      (F64.partialCmp_eq.mpr (.inr (.inl isNan))) (F64.partialCmp_eq.mpr (.inl isNan))
    rcases F64.partialCmp_eq.mp chained with firstNan | secondNan | same
    · rw [isFirst] at firstNan
      cases firstNan
    · rw [isSecond] at secondNan
      cases secondNan
    · exact same

theorem memCmp_of_classCompare {left right : Value} {ordering : Ordering}
    (compared : classCompare left right collation = .ok ordering) :
    memCmp left right collation = ordering := by
  rw [classCompare_value] at compared
  cases left with
  | null | vector => cases right <;> cases compared
  | integer | real | text | blob =>
    cases right with
    | null | vector => cases compared
    | integer | real | text | blob =>
      exact Except.ok.inj compared

end Order

end InlaySql.Eval
