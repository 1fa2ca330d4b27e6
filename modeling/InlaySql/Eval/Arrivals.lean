import InlaySql.Eval.Order
import InlaySql.Lib.Arrivals

/-!
# Rows in any order of arrival

The sorts, folds and tables that rest on the order of values. On separated values each of
them gives the same whatever the order its rows arrive in, ties apart; and the order is an
order on separated values alone.
-/

namespace InlaySql.Eval

open Lib Sql

/-! ## `DISTINCT` inside an aggregate, and the extremes -/

def distinctValues (values : List Value) (collation : Collation) : List Value :=
  keepFirst (fun left right => memCmp left right collation) values

/-- `AggFold::Extreme`, the running `MIN` or `MAX`. -/
structure Extreme where
  best : Option Value
  largest : Bool
  collation : Collation
  deriving DecidableEq, Repr

namespace Extreme

/-- `AggFold::step`. -/
def step (self : Extreme) (value : Value) : Extreme :=
  if value.isNull then self
  else
    let take : Bool :=
      match self.best with
      | none => true
      | some current =>
        let ordering := memCmp value current self.collation
        if self.largest then ordering == .gt else ordering == .lt
    if take then { self with best := some value } else self

/-- `AggFold::finish`. -/
def finish (self : Extreme) : Value := self.best.getD .null

end Extreme

/-- `MIN` or `MAX` of values as they arrive. -/
def foldExtreme (largest : Bool) (collation : Collation) (values : List Value) : Value :=
  (values.foldl Extreme.step ⟨none, largest, collation⟩).finish

/-! ## `ORDER BY` -/

/-- One term of an `ORDER BY`; retrieval scores are not values and are left out. -/
structure OrderTerm where
  desc : Bool
  nullsFirst : Bool
  collation : Collation
  deriving DecidableEq, Repr

/-- `SortKey::compare`. -/
def sortKeyCompare (term : OrderTerm) (left right : Value) : Ordering :=
  match left.isNull, right.isNull with
  | true, true => .eq
  | true, false => if term.nullsFirst then .lt else .gt
  | false, true => if term.nullsFirst then .gt else .lt
  | false, false =>
    let ordering := memCmp left right term.collation
    if term.desc then ordering.swap else ordering

/-- A row with its evaluated sort keys, one for each term. -/
structure KeyedRow where
  keys : List Value
  row : ExecRow
  deriving DecidableEq, Repr

/-- The comparator of one position of the keys. -/
def termCompare (order : List OrderTerm) (index : Nat) (left right : Value) : Ordering :=
  match order[index]? with
  | some term => sortKeyCompare term left right
  | none => .eq

/-- The comparator of `sort_rows`: the keys term by term, then the row id. -/
def compareKeyedRows (order : List OrderTerm) (left right : KeyedRow) : Ordering :=
  match lexFrom (termCompare order) 0 left.keys right.keys with
  | .eq => compare left.row.id right.row.id
  | decided => decided

/-- `sort_rows`, over evaluated keys. -/
def sortRows (order : List OrderTerm) (rows : List KeyedRow) : List KeyedRow :=
  sortBy (compareKeyedRows order) rows

/-! ## `DISTINCT` and `GROUP BY` -/

def compareProjections (left right : List Value) (collations : List Collation) : Ordering :=
  lexFrom (fun position left right =>
    memCmp left right (Collation.atPosition collations position)) 0 left right

/-- `distinct_rows`, over rows beside their projections. -/
def distinctRows (collations : List Collation) (rows : List (List Value × ExecRow)) :
    List (List Value × ExecRow) :=
  keepFirst (fun left right => compareProjections left.1 right.1 collations) rows

def compareGroupKeys (left right : List Value) (collations : List Collation) : Ordering :=
  lexFrom (fun position left right =>
    memCmp left right (Collation.atPosition collations position)) 0 left right

/-- `numeric_bits`: one zero and one `NaN`. -/
def numericBits (real : F64) : UInt64 :=
  if real.isNan then 0x7ff8000000000000 else real.plusZero.bits

/-- The part of `hash_group_key` one value is. -/
def hashGroupPart (collation : Collation) : Value -> UInt64
  | .null => 0x9e3779b97f4a7c15
  | .integer integer => numericBits (F64.ofInt integer)
  | .real real => numericBits real
  | .text text => fnv1a (collation.fold (utf8 text)) ^^^ 0x2545f4914f6cdd1d
  | .blob bytes => fnv1a bytes ^^^ 0x6a09e667f3bcc909
  | .vector lanes => UInt64.ofNat lanes.length ^^^ 0xbb67ae8584caa73b

def hashGroupKey (values : List Value) (collations : List Collation) : UInt64 :=
  values.zipIdx.foldl (fun hash entry =>
    mix64 (hash ^^^ hashGroupPart (Collation.atPosition collations entry.2) entry.1))
    0xcbf29ce484222325

/-- Whether `GroupTable::find` stops at a key: one hash and equal values. -/
def sameGroup (collations : List Collation) (probe key : List Value) : Bool :=
  hashGroupKey probe collations == hashGroupKey key collations &&
    compareGroupKeys probe key collations == .eq

/-- The groups of rows beside their keys, in the order they are opened. -/
def groupRows (collations : List Collation) (rows : List (List Value × ExecRow)) :
    List (List Value × List (List Value × ExecRow)) :=
  groupItems (sameGroup collations) Prod.fst rows

/-! ## What rests on the order -/

/-- Values that are of the domain. -/
def Within (domain : Set Value) (values : List Value) : Prop := ∀ value ∈ values, value ∈ domain

/-- Keys of `width` values of the domain. -/
def KeysWithin (domain : Set Value) (width : Nat) : Set (List Value) :=
  {keys | keys.length = width ∧ ∀ key ∈ keys, key ∈ domain}

/-- The value order is an order on `domain`, and what rests on it does not depend on the
order its input arrives in except for ties. -/
structure OrderHolds (domain : Set Value) : Prop where
  /-- The comparator is reflexive, antisymmetric up to equality and transitive. -/
  preorder : ∀ collation, (∀ value ∈ domain, memCmp value value collation = .eq) ∧
    PreorderOn (fun left right => memCmp left right collation) domain
  /-- It agrees with the comparison operators. -/
  agrees : ∀ collation, ∀ left ∈ domain, ∀ right ∈ domain, ∀ ordering,
    classCompare left right collation = .ok ordering -> memCmp left right collation = ordering
  /-- `DISTINCT` keeps exactly the first of each class of equal values. -/
  distinct : ∀ collation values, Within domain values ->
    distinctValues values collation =
      firstOfEach (fun left right => memCmp left right collation) values
  /-- Another order of arrival keeps one value of each class too. -/
  distinctArrival : ∀ collation values arrival, Within domain values -> values.Perm arrival ->
    ∀ value ∈ distinctValues values collation,
      ∃! other, other ∈ distinctValues arrival collation ∧ memCmp value other collation = .eq
  /-- `MIN` and `MAX` find equal values. -/
  extreme : ∀ largest collation values arrival, Within domain values -> values.Perm arrival ->
    memCmp (foldExtreme largest collation values) (foldExtreme largest collation arrival)
      collation = .eq
  /-- `ORDER BY` puts rows that tie in the same places. -/
  orderBy : ∀ order (rows arrival : List KeyedRow),
    (∀ row ∈ rows, row.keys ∈ KeysWithin domain order.length) -> rows.Perm arrival ->
    List.Forall₂ (fun left right => compareKeyedRows order left right = .eq)
      (sortRows order rows) (sortRows order arrival)
  /-- `SELECT DISTINCT` keeps exactly the first of each class of equal rows. -/
  selectDistinct : ∀ collations width (rows : List (List Value × ExecRow)),
    (∀ row ∈ rows, row.1 ∈ KeysWithin domain width) ->
    distinctRows collations rows =
      firstOfEach (fun left right => compareProjections left.1 right.1 collations) rows
  /-- Another order of arrival keeps one row of each class too. -/
  selectDistinctArrival : ∀ collations width (rows arrival : List (List Value × ExecRow)),
    (∀ row ∈ rows, row.1 ∈ KeysWithin domain width) -> rows.Perm arrival ->
    ∀ row ∈ distinctRows collations rows,
      ∃! other, other ∈ distinctRows collations arrival ∧
        compareProjections row.1 other.1 collations = .eq
  /-- `GROUP BY` puts the same rows together. -/
  groupBy : ∀ collations width (rows arrival : List (List Value × ExecRow)),
    (∀ row ∈ rows, row.1 ∈ KeysWithin domain width) -> rows.Perm arrival ->
    ((groupRows collations rows).map fun group =>
        (group.2 : Multiset (List Value × ExecRow))).Perm
      ((groupRows collations arrival).map fun group =>
        (group.2 : Multiset (List Value × ExecRow)))

section Holds

variable {domain : Set Value}
  (order : ∀ collation, PreorderOn (fun left right => memCmp left right collation) domain)
include order

theorem preorderOn_sortKeyCompare (term : OrderTerm) : PreorderOn (sortKeyCompare term) domain := by
  let place (value : Value) : Nat :=
    if value.isNull then (if term.nullsFirst then 0 else 2) else 1
  have contents : PreorderOn (fun left right =>
      if term.desc then (memCmp left right term.collation).swap
      else memCmp left right term.collation) domain := by
    cases term.desc with
    | true => exact (order term.collation).flip
    | false => exact order term.collation
  have placed : PreorderOn (fun left right => (compare (place left) (place right)).then
      (if term.desc then (memCmp left right term.collation).swap
      else memCmp left right term.collation)) domain :=
    ((preorderOn_compare Set.univ).comap _ fun _ _ => trivial).andThen contents
  refine placed.congr fun left _ right _ => ?_
  have bothNull : left.isNull = true -> right.isNull = true ->
      memCmp left right term.collation = .eq := by
    intro leftNull rightNull
    rw [show left = .null by simpa [Value.isNull] using leftNull,
      show right = .null by simpa [Value.isNull] using rightNull]
    rfl
  unfold sortKeyCompare
  cases leftNull : left.isNull <;> cases rightNull : right.isNull
  · simp [place, leftNull, rightNull]
  · cases first : term.nullsFirst <;> simp [place, leftNull, rightNull, first] <;> rfl
  · cases first : term.nullsFirst <;> simp [place, leftNull, rightNull, first] <;> rfl
  · simp [place, leftNull, rightNull, bothNull leftNull rightNull]

theorem preorderOn_compareProjections (collations : List Collation) (width : Nat) :
    PreorderOn (fun left right => compareProjections left right collations)
      (KeysWithin domain width) :=
  .lexFrom (fun position => order (Collation.atPosition collations position)) width 0

theorem preorderOn_compareKeyedRows (terms : List OrderTerm) :
    PreorderOn (compareKeyedRows terms) {row | row.keys ∈ KeysWithin domain terms.length} := by
  have position : ∀ index, PreorderOn (termCompare terms index) domain := by
    intro index
    unfold termCompare
    cases terms[index]? with
    | none => exact preorderOn_eq _
    | some term => exact preorderOn_sortKeyCompare order term
  have keys : PreorderOn (lexFrom (termCompare terms) 0) (KeysWithin domain terms.length) :=
    .lexFrom position terms.length 0
  have byKeys : PreorderOn (fun left right : KeyedRow =>
      lexFrom (termCompare terms) 0 left.keys right.keys)
      {row | row.keys ∈ KeysWithin domain terms.length} :=
    keys.comap KeyedRow.keys fun row member => member
  have whole := byKeys.andThen
    ((preorderOn_compare Set.univ).comap (fun row : KeyedRow => row.row.id) fun _ _ => trivial)
  refine whole.congr fun left _ right _ => ?_
  unfold compareKeyedRows
  cases lexFrom (termCompare terms) 0 left.keys right.keys <;> rfl

theorem equivalenceOn_sameGroup (collations : List Collation) (width : Nat) :
    EquivalenceOn (sameGroup collations) (KeysWithin domain width) := by
  have keys := preorderOn_compareProjections order collations width
  have same_iff : ∀ left right, sameGroup collations left right = true ↔
      hashGroupKey left collations = hashGroupKey right collations ∧
        compareProjections left right collations = .eq := by
    intro left right
    rw [sameGroup, Bool.and_eq_true, beq_iff_eq, beq_iff_eq]
    rfl
  constructor
  · intro key member
    exact (same_iff key key).mpr ⟨rfl, keys.refl member⟩
  · intro left inLeft right inRight same
    obtain ⟨hashes, equal⟩ := (same_iff left right).mp same
    exact (same_iff right left).mpr ⟨hashes.symm, keys.eq_symm inLeft inRight equal⟩
  · intro low inLow mid inMid high inHigh first second
    obtain ⟨hashes, equal⟩ := (same_iff low mid).mp first
    obtain ⟨more, also⟩ := (same_iff mid high).mp second
    exact (same_iff low high).mpr ⟨hashes.trans more, keys.eq_trans inLow inMid inHigh equal also⟩

omit order in
theorem foldl_step (largest : Bool) (collation : Collation) (values : List Value)
    (best : Option Value) :
    values.foldl Extreme.step ⟨best, largest, collation⟩ =
      ⟨(values.filter fun value => !value.isNull).foldl
        (extremeStep (fun left right => memCmp left right collation)
          (if largest then .gt else .lt)) best, largest, collation⟩ := by
  induction values generalizing best with
  | nil => rfl
  | cons value rest ih =>
    rw [List.foldl_cons]
    cases isNull : value.isNull with
    | true =>
      rw [List.filter_cons_of_neg (by simp [isNull])]
      rw [show Extreme.step ⟨best, largest, collation⟩ value = ⟨best, largest, collation⟩ by
        simp [Extreme.step, isNull]]
      exact ih best
    | false =>
      rw [List.filter_cons_of_pos (by simp [isNull]), List.foldl_cons]
      have stepped : Extreme.step ⟨best, largest, collation⟩ value =
          ⟨extremeStep (fun left right => memCmp left right collation)
            (if largest then .gt else .lt) best value, largest, collation⟩ := by
        cases best with
        | none => simp [Extreme.step, extremeStep, isNull]
        | some current =>
          cases largest with
          | true =>
            by_cases better : memCmp value current collation = .gt <;>
              simp [Extreme.step, extremeStep, isNull, better]
          | false =>
            by_cases better : memCmp value current collation = .lt <;>
              simp [Extreme.step, extremeStep, isNull, better]
      rw [stepped]
      exact ih _

theorem foldExtreme_perm (largest : Bool) (collation : Collation) {values arrival : List Value}
    (within : Within domain values) (perm : values.Perm arrival) :
    memCmp (foldExtreme largest collation values) (foldExtreme largest collation arrival)
      collation = .eq := by
  have strict : (if largest then Ordering.gt else .lt) = .lt ∨
      (if largest then Ordering.gt else .lt) = .gt := by
    cases largest <;> simp
  have found := (order collation).extreme_perm strict
    (perm.filter fun value => !value.isNull) fun value member =>
      within value (List.mem_of_mem_filter member)
  unfold foldExtreme Extreme.finish
  rw [foldl_step, foldl_step]
  generalize (values.filter fun value => !value.isNull).foldl _ _ = best at found
  generalize (arrival.filter fun value => !value.isNull).foldl _ _ = other at found
  cases found with
  | some same => exact same
  | none => rfl

end Holds

/-- The value order is an order exactly on the sets of values where no comparison through
doubles is at odds with an exact one, and there nothing that rests on it depends on the
order its input arrives in except for ties. -/
theorem orderHolds_iff {domain : Set Value} (plain : ∀ value ∈ domain, Plain value) :
    OrderHolds domain ↔ Separated domain := by
  constructor
  · intro holds
    exact separated_of_preorderOn (holds.preorder .binary).2 plain
  · intro separated
    have order (collation : Collation) :
        PreorderOn (fun left right => memCmp left right collation) domain :=
      preorderOn_memCmp separated plain
    have rows (collations : List Collation) (width : Nat) :=
      (preorderOn_compareProjections order collations width).comap Prod.fst
        (show ∀ row ∈ {row : List Value × ExecRow | row.1 ∈ KeysWithin domain width},
          row.1 ∈ KeysWithin domain width from fun row member => member)
    constructor
    · intro collation
      exact ⟨fun value member => (order collation).refl member, order collation⟩
    · intro collation left inLeft right inRight ordering compared
      exact memCmp_of_classCompare compared
    · intro collation values within
      exact keepFirst_eq (order collation) within
    · intro collation values arrival within perm value member
      have withinArrival : Within domain arrival := fun value member =>
        within value (perm.mem_iff.mpr member)
      rw [distinctValues, keepFirst_eq (order collation) within] at member
      rw [distinctValues, keepFirst_eq (order collation) withinArrival]
      exact (order collation).firstOfEach_perm within perm member
    · intro largest collation values arrival within perm
      exact foldExtreme_perm order largest collation within perm
    · intro terms rows arrival within perm
      exact (preorderOn_compareKeyedRows order terms).sortBy_forall₂ perm within
    · intro collations width items within
      exact keepFirst_eq (rows collations width) within
    · intro collations width items arrival within perm row member
      have withinArrival : ∀ row ∈ arrival, row.1 ∈ KeysWithin domain width := fun row member =>
        within row (perm.mem_iff.mpr member)
      rw [distinctRows, keepFirst_eq (rows collations width) within] at member
      rw [distinctRows, keepFirst_eq (rows collations width) withinArrival]
      exact (rows collations width).firstOfEach_perm within perm member
    · intro collations width items arrival within perm
      exact groupItems_perm (equivalenceOn_sameGroup order collations width) perm within

/-- An integer, a real and a text. -/
def mixedValues : Set Value :=
  {value | value = .integer 1 ∨ value = .real ⟨0x3ff8000000000000⟩ ∨ value = .text "a"}

theorem orderHolds_mixedValues : OrderHolds mixedValues := by
  refine (orderHolds_iff ?_).mpr ⟨?_, ?_, ?_, ?_⟩
  · rintro value (rfl | rfl | rfl)
    · exact ⟨by decide, by decide⟩
    · trivial
    · trivial
  · rintro first second real (same | same | same) (also | also | also) - - - <;> cases same <;>
      cases also
    rfl
  all_goals
    rintro nan - - (same | same | same) isNan <;> cases same
    exact absurd isNan (by decide)

/-- `9007199254740993` equals the real `9007199254740992`, which equals the integer
`9007199254740992`, which is less: no order. -/
theorem memCmp_clash :
    memCmp (.integer 9007199254740993) (.real ⟨0x4340000000000000⟩) .binary = .eq ∧
      memCmp (.real ⟨0x4340000000000000⟩) (.integer 9007199254740992) .binary = .eq ∧
      memCmp (.integer 9007199254740993) (.integer 9007199254740992) .binary = .gt ∧
      ¬ OrderHolds {value | Plain value} := by
  have first : memCmp (.integer 9007199254740993) (.real ⟨0x4340000000000000⟩) .binary = .eq := by
    decide +kernel
  have second : memCmp (.real ⟨0x4340000000000000⟩) (.integer 9007199254740992) .binary = .eq := by
    decide +kernel
  have whole : memCmp (.integer 9007199254740993) (.integer 9007199254740992) .binary = .gt := by
    decide +kernel
  refine ⟨first, second, whole, fun holds => ?_⟩
  have chained := (holds.preorder .binary).2.trans (.integer 9007199254740993)
    ⟨by decide, by decide⟩ (.real ⟨0x4340000000000000⟩) trivial (.integer 9007199254740992)
    ⟨by decide, by decide⟩ (by rw [first]; rfl) (by rw [second]; rfl)
  rw [whole] at chained
  cases chained

end InlaySql.Eval
