import Mathlib

/-!
# Comparators on a set

A comparator need not order every pair of values it is given, but only those that occur
together. Where it is a total preorder on them, a stable sort, a pass that keeps the first
of equal items, a grouping and a running extreme give the same up to ties in whatever
order the items come.
-/

namespace InlaySql.Lib

open List

variable {α : Type}

/-- `cmp` is a total preorder on `domain`. -/
structure PreorderOn (cmp : α -> α -> Ordering) (domain : Set α) : Prop where
  swap : ∀ left ∈ domain, ∀ right ∈ domain, cmp left right = (cmp right left).swap
  trans : ∀ low ∈ domain, ∀ mid ∈ domain, ∀ high ∈ domain,
    (cmp low mid).isLE -> (cmp mid high).isLE -> (cmp low high).isLE

/-- `sort_by`: a stable sort. -/
def sortBy (cmp : α -> α -> Ordering) (items : List α) : List α :=
  items.mergeSort fun left right => (cmp left right).isLE

theorem sortBy_perm (cmp : α -> α -> Ordering) (items : List α) : (sortBy cmp items).Perm items :=
  mergeSort_perm _ _

/-- The items of the domain at or below one. -/
def below (cmp : α -> α -> Ordering) (domain : Set α) (item : α) : Set α :=
  {other | other ∈ domain ∧ (cmp other item).isLE}

namespace PreorderOn

variable {cmp : α -> α -> Ordering} {domain : Set α} (order : PreorderOn cmp domain)
include order

theorem refl {item : α} (member : item ∈ domain) : cmp item item = .eq := by
  have same := order.swap item member item member
  cases told : cmp item item <;> rw [told] at same <;> first | rfl | cases same

theorem transCmp : Std.TransCmp fun left right : domain => cmp left right where
  eq_swap := fun {left right} => order.swap left left.2 right right.2
  isLE_trans := fun {low mid high} =>
    order.trans low low.2 mid mid.2 high high.2

variable {left right : α}

theorem eq_symm (inLeft : left ∈ domain) (inRight : right ∈ domain) (same : cmp left right = .eq) :
    cmp right left = .eq := by
  rw [order.swap right inRight left inLeft, same]
  rfl

theorem congr_left {other : α} (inLeft : left ∈ domain) (inRight : right ∈ domain)
    (inOther : other ∈ domain) (same : cmp left right = .eq) : cmp left other = cmp right other :=
  have := order.transCmp
  @Std.TransCmp.congr_left domain (fun left right => cmp left right) this
    ⟨left, inLeft⟩ ⟨right, inRight⟩ ⟨other, inOther⟩ same

section

variable {low mid high : α} (inLow : low ∈ domain) (inMid : mid ∈ domain) (inHigh : high ∈ domain)

include inLow inMid inHigh

theorem eq_trans (first : cmp low mid = .eq) (second : cmp mid high = .eq) :
    cmp low high = .eq := by
  rw [order.congr_left inLow inMid inHigh first, second]

theorem lt_of_lt_of_isLE (first : cmp low mid = .lt) (second : (cmp mid high).isLE) :
    cmp low high = .lt :=
  have := order.transCmp
  @Std.TransCmp.lt_of_lt_of_isLE domain (fun left right => cmp left right) this
    ⟨low, inLow⟩ ⟨mid, inMid⟩ ⟨high, inHigh⟩ first second

end

theorem sortBy_pairwise {items : List α} (within : ∀ item ∈ items, item ∈ domain) :
    (sortBy cmp items).Pairwise fun left right => (cmp left right).isLE := by
  have := order.transCmp
  have lifted : sortBy cmp items = (sortBy (fun left right : domain => cmp left right)
        (items.attachWith (· ∈ domain) within)).map Subtype.val := by
    unfold sortBy
    rw [map_mergeSort (s := fun left right => (cmp left right).isLE)
      (fun left _ right _ => rfl), attachWith_map_subtype_val]
  rw [lifted, pairwise_map]
  apply List.pairwise_mergeSort
  · intro low mid high
    exact order.transCmp.isLE_trans
  · intro left right
    have swapped := order.swap left left.2 right right.2
    cases told : cmp right left <;> simp [swapped, told]

section

variable (inLeft : left ∈ domain) (inRight : right ∈ domain)

include inLeft inRight

theorem below_subset_iff :
    below cmp domain left ⊆ below cmp domain right ↔ (cmp left right).isLE := by
  constructor
  · intro within
    have self : left ∈ below cmp domain left := ⟨inLeft, by rw [order.refl inLeft]; rfl⟩
    exact (within self).2
  · rintro le other ⟨inOther, lower⟩
    exact ⟨inOther, order.trans other inOther left inLeft right inRight lower le⟩

theorem below_eq_iff : below cmp domain left = below cmp domain right ↔ cmp left right = .eq := by
  rw [Set.Subset.antisymm_iff, order.below_subset_iff inLeft inRight,
    order.below_subset_iff inRight inLeft, order.swap right inRight left inLeft]
  cases cmp left right <;> decide

end

section

variable {first second : List α} (perm : first.Perm second) (within : ∀ item ∈ first, item ∈ domain)

include perm within

theorem forall₂_of_perm (firstSorted : first.Pairwise fun left right => (cmp left right).isLE)
    (secondSorted : second.Pairwise fun left right => (cmp left right).isLE) :
    List.Forall₂ (fun left right => cmp left right = .eq) first second := by
  have inSecond : ∀ item ∈ second, item ∈ domain := fun item member =>
    within item (perm.mem_iff.mpr member)
  have sorted (items : List α) (inside : ∀ item ∈ items, item ∈ domain)
      (pairwise : items.Pairwise fun left right => (cmp left right).isLE) :
      (items.map (below cmp domain)).Pairwise (· ⊆ ·) := by
    rw [pairwise_map]
    exact pairwise.imp_of_mem fun {left right} inLeft inRight le =>
      (order.below_subset_iff (inside left inLeft) (inside right inRight)).mpr le
  have same : first.map (below cmp domain) = second.map (below cmp domain) :=
    List.Perm.eq_of_pairwise (fun _ _ _ _ => Set.Subset.antisymm)
      (sorted first within firstSorted) (sorted second inSecond secondSorted) (perm.map _)
  rw [forall₂_iff_get]
  have sizes := congrArg List.length same
  simp only [length_map] at sizes
  refine ⟨sizes, fun index inFirst inSecond' => ?_⟩
  have here := congrArg (fun items => items[index]?) same
  simp only [getElem?_map, getElem?_eq_getElem inFirst,
    getElem?_eq_getElem inSecond', Option.map_some, Option.some.injEq] at here
  exact (order.below_eq_iff (within _ (getElem_mem _)) (inSecond _ (getElem_mem _))).mp here

theorem sortBy_forall₂ : List.Forall₂ (fun left right => cmp left right = .eq) (sortBy cmp first)
      (sortBy cmp second) := by
  have inSecond : ∀ item ∈ second, item ∈ domain := fun item member =>
    within item (perm.mem_iff.mpr member)
  refine order.forall₂_of_perm
    ((sortBy_perm cmp first).trans (perm.trans (sortBy_perm cmp second).symm)) ?_
    (order.sortBy_pairwise within) (order.sortBy_pairwise inSecond)
  exact fun item member => within item ((sortBy_perm cmp first).mem_iff.mp member)

end

theorem andThen {next : α -> α -> Ordering} (second : PreorderOn next domain) :
    PreorderOn (fun left right => (cmp left right).then (next left right)) domain where
  swap left inLeft right inRight := by
    rw [order.swap left inLeft right inRight, second.swap left inLeft right inRight,
      Ordering.swap_then]
  trans low inLow mid inMid high inHigh first rest := by
    have leFirst : ∀ {one two : Ordering}, (one.then two).isLE -> one.isLE := by
      intro one two
      cases one <;> cases two <;> decide
    cases lowMid : cmp low mid with
    | gt => rw [lowMid] at first; cases first
    | lt =>
      rw [order.lt_of_lt_of_isLE inLow inMid inHigh lowMid (leFirst rest)]
      rfl
    | eq =>
      rw [lowMid] at first
      have alike := order.congr_left inLow inMid inHigh lowMid
      rw [alike]
      cases midHigh : cmp mid high with
      | gt => rw [midHigh] at rest; cases rest
      | lt => rfl
      | eq =>
        rw [midHigh] at rest
        exact second.trans low inLow mid inMid high inHigh first rest

end PreorderOn

variable {β : Type} {cmp : α -> α -> Ordering} {domain : Set α}

theorem PreorderOn.comap {cmp : β -> β -> Ordering} {domain : Set β} (order : PreorderOn cmp domain)
    {part : Set α} (make : α -> β) (within : ∀ item ∈ part, make item ∈ domain) :
    PreorderOn (fun left right => cmp (make left) (make right)) part where
  swap left inLeft right inRight :=
    order.swap _ (within left inLeft) _ (within right inRight)
  trans low inLow mid inMid high inHigh :=
    order.trans _ (within low inLow) _ (within mid inMid) _ (within high inHigh)

theorem preorderOn_compare [LinearOrder β] (domain : Set β) :
    PreorderOn (fun left right : β => compare left right) domain where
  swap _ _ _ _ := Std.OrientedCmp.eq_swap
  trans _ _ _ _ _ _ := Std.TransCmp.isLE_trans

theorem PreorderOn.congr {other : α -> α -> Ordering} (order : PreorderOn cmp domain)
    (same : ∀ left ∈ domain, ∀ right ∈ domain, other left right = cmp left right) :
    PreorderOn other domain where
  swap left inLeft right inRight := by
    rw [same left inLeft right inRight, same right inRight left inLeft]
    exact order.swap left inLeft right inRight
  trans low inLow mid inMid high inHigh := by
    rw [same low inLow mid inMid, same mid inMid high inHigh, same low inLow high inHigh]
    exact order.trans low inLow mid inMid high inHigh

theorem PreorderOn.flip (order : PreorderOn cmp domain) :
    PreorderOn (fun left right => (cmp left right).swap) domain where
  swap left inLeft right inRight := by rw [order.swap left inLeft right inRight]
  trans low inLow mid inMid high inHigh first second := by
    rw [<- order.swap high inHigh low inLow]
    rw [<- order.swap mid inMid low inLow] at first
    rw [<- order.swap high inHigh mid inMid] at second
    exact order.trans high inHigh mid inMid low inLow second first

theorem preorderOn_eq (domain : Set α) : PreorderOn (fun _ _ : α => .eq) domain :=
  ⟨fun _ _ _ _ => rfl, fun _ _ _ _ _ _ _ _ => rfl⟩

theorem PreorderOn.byRank [LinearOrder β] {rank : α -> β}
    (within : ∀ value, PreorderOn cmp {item | item ∈ domain ∧ rank item = value}) :
    PreorderOn (fun left right => (compare (rank left) (rank right)).then (cmp left right))
      domain where
  swap left inLeft right inRight := by
    rcases lt_trichotomy (rank left) (rank right) with less | same | more
    · rw [compare_lt_iff_lt.mpr less, compare_gt_iff_gt.mpr less]
      rfl
    · rw [same, compare_eq_iff_eq.mpr rfl]
      exact (within (rank right)).swap left ⟨inLeft, same⟩ right ⟨inRight, rfl⟩
    · rw [compare_gt_iff_gt.mpr more, compare_lt_iff_lt.mpr more]
      rfl
  trans low inLow mid inMid high inHigh first second := by
    have rank_le : ∀ {one two : α},
        ((compare (rank one) (rank two)).then (cmp one two)).isLE -> rank one ≤ rank two := by
      intro one two le
      by_contra above
      rw [compare_gt_iff_gt.mpr (not_le.mp above)] at le
      cases le
    have lowMid := rank_le first
    have midHigh := rank_le second
    rcases lt_or_eq_of_le (lowMid.trans midHigh) with less | same
    · rw [compare_lt_iff_lt.mpr less]
      rfl
    · have lowSame : rank low = rank mid := le_antisymm lowMid (same ▸ midHigh)
      have midSame : rank mid = rank high := lowSame.symm.trans same
      rw [lowSame, compare_eq_iff_eq.mpr rfl] at first
      rw [midSame, compare_eq_iff_eq.mpr rfl] at second
      rw [same, compare_eq_iff_eq.mpr rfl]
      exact (within (rank high)).trans low ⟨inLow, same⟩ mid ⟨inMid, midSame⟩ high ⟨inHigh, rfl⟩
        first second

/-- Position by position from `position` on: the first that differ decide. -/
def lexFrom (cmp : Nat -> α -> α -> Ordering) : Nat -> List α -> List α -> Ordering
  | position, left :: lefts, right :: rights =>
    match cmp position left right with
    | .eq => lexFrom cmp (position + 1) lefts rights
    | decided => decided
  | _, _, _ => .eq

theorem lexFrom_cons (cmp : Nat -> α -> α -> Ordering) (position : Nat) (left right : α)
    (lefts rights : List α) :
    lexFrom cmp position (left :: lefts) (right :: rights) =
      (cmp position left right).then (lexFrom cmp (position + 1) lefts rights) := by
  rw [lexFrom]
  cases cmp position left right <;> rfl

theorem PreorderOn.lexFrom {cmp : Nat -> α -> α -> Ordering}
    (order : ∀ position, PreorderOn (cmp position) domain) (width position : Nat) :
    PreorderOn (lexFrom cmp position)
      {items | items.length = width ∧ ∀ item ∈ items, item ∈ domain} := by
  induction width generalizing position with
  | zero =>
    refine (preorderOn_eq _).congr ?_
    rintro left ⟨isLeft, -⟩ right -
    rw [length_eq_zero_iff.mp isLeft]
    rfl
  | succ width ih =>
    have pairs : PreorderOn (fun left right : α × List α =>
        (cmp position left.1 right.1).then (Lib.lexFrom cmp (position + 1) left.2 right.2))
        {pair | pair.1 ∈ domain ∧ pair.2.length = width ∧ ∀ item ∈ pair.2, item ∈ domain} :=
      ((order position).comap _ fun pair member => member.1).andThen
        ((ih (position + 1)).comap _ fun pair member => member.2)
    have split : ∀ {items : List α}, items.length = width + 1 ∧ (∀ item ∈ items, item ∈ domain) ->
        ∃ head tail, items = head :: tail ∧ (head, tail) ∈ {pair : α × List α |
          pair.1 ∈ domain ∧ pair.2.length = width ∧ ∀ item ∈ pair.2, item ∈ domain} := by
      rintro items ⟨size, within⟩
      cases items with
      | nil => cases size
      | cons head tail =>
        rw [forall_mem_cons] at within
        exact ⟨head, tail, rfl, within.1, by simpa using size, within.2⟩
    constructor
    · intro left inLeft right inRight
      obtain ⟨head, tail, rfl, inPair⟩ := split inLeft
      obtain ⟨other, others, rfl, inOther⟩ := split inRight
      rw [lexFrom_cons, lexFrom_cons]
      exact pairs.swap _ inPair _ inOther
    · intro low inLow mid inMid high inHigh
      obtain ⟨lowHead, lowTail, rfl, lowPair⟩ := split inLow
      obtain ⟨midHead, midTail, rfl, midPair⟩ := split inMid
      obtain ⟨highHead, highTail, rfl, highPair⟩ := split inHigh
      rw [lexFrom_cons, lexFrom_cons, lexFrom_cons]
      exact pairs.trans _ lowPair _ midPair _ highPair

/-! ## The first of equal items -/

/-- The comparator on the positions of a list. -/
def byIndex (cmp : α -> α -> Ordering) (items : List α) (left right : Nat) : Ordering :=
  match items[left]?, items[right]? with
  | some left, some right => cmp left right
  | _, _ => .eq

/-- The head of each run of equal positions, after the head of the run before. -/
def runHeads (cmp : Nat -> Nat -> Ordering) : Option Nat -> List Nat -> List Nat
  | _, [] => []
  | none, index :: rest => index :: runHeads cmp (some index) rest
  | some previous, index :: rest =>
    if cmp previous index = .eq then runHeads cmp (some previous) rest
    else index :: runHeads cmp (some index) rest

/-- The positions a pass over the sorted positions keeps, equal items by position. -/
def keptIndices (cmp : α -> α -> Ordering) (items : List α) : List Nat :=
  runHeads (byIndex cmp items) none
    (sortBy (fun left right => (byIndex cmp items left right).then (compare left right))
      (List.range items.length))

/-- The items a sort and one pass keep, in the order they came. -/
def keepFirst (cmp : α -> α -> Ordering) (items : List α) : List α :=
  (items.zipIdx.filter fun entry => (keptIndices cmp items).contains entry.2).map Prod.fst

/-- The items that no earlier item equals. -/
def firstOfEach (cmp : α -> α -> Ordering) (items : List α) : List α :=
  (items.zipIdx.filter fun entry =>
    (items.take entry.2).all fun earlier => cmp earlier entry.1 != .eq).map Prod.fst

section RunHeads

variable {cmp : Nat -> Nat -> Ordering} {domain : Set Nat} (order : PreorderOn cmp domain)

theorem before_cases {left right : Nat}
    (before : (cmp left right).then (compare left right) = .lt) :
    cmp left right = .lt ∨ cmp left right = .eq ∧ left < right := by
  cases told : cmp left right with
  | lt => exact .inl rfl
  | gt => rw [told] at before; cases before
  | eq =>
    rw [told] at before
    exact .inr ⟨rfl, Nat.compare_eq_lt.mp before⟩

include order

variable {positions : List Nat}

theorem mem_runHeads {previous : Nat} (sorted : (previous :: positions).Pairwise fun left right =>
      (cmp left right).then (compare left right) = .lt)
    (within : ∀ index ∈ previous :: positions, index ∈ domain) (index : Nat) :
    index ∈ runHeads cmp (some previous) positions ↔ index ∈ positions ∧
      ∀ other ∈ previous :: positions, cmp other index = .eq -> index ≤ other := by
  induction positions generalizing previous with
  | nil => simp [runHeads]
  | cons head rest ih =>
    obtain ⟨previousBefore, headSorted⟩ := pairwise_cons.mp sorted
    obtain ⟨headBefore, restSorted⟩ := pairwise_cons.mp headSorted
    have inPrevious := within previous mem_cons_self
    have inHead := within head (mem_cons_of_mem _ mem_cons_self)
    have inRest : ∀ index ∈ rest, index ∈ domain := fun index member =>
      within index (mem_cons_of_mem _ (mem_cons_of_mem _ member))
    have later : ∀ {one two}, (cmp one two).then (compare one two) = .lt ->
        cmp one two = .eq -> one < two := by
      intro one two before same
      rcases before_cases before with less | ⟨-, less⟩
      · rw [same] at less
        cases less
      · exact less
    by_cases same : cmp previous head = .eq
    · have onward := ih (pairwise_cons.mpr
        ⟨fun other member => previousBefore other (mem_cons_of_mem _ member), restSorted⟩)
        (forall_mem_cons.mpr ⟨inPrevious, inRest⟩)
      rw [runHeads, if_pos same, onward]
      constructor
      · rintro ⟨member, least⟩
        refine ⟨mem_cons_of_mem _ member, ?_⟩
        simp only [forall_mem_cons] at least ⊢
        refine ⟨least.1, fun alike => ?_, least.2⟩
        have past := later (previousBefore index (mem_cons_of_mem _ member))
          (order.eq_trans inPrevious inHead (inRest index member) same alike)
        have back := least.1 (order.eq_trans inPrevious inHead (inRest index member) same alike)
        omega
      · rintro ⟨member, least⟩
        simp only [forall_mem_cons] at least ⊢
        rcases mem_cons.mp member with rfl | member
        · have past := later (previousBefore index mem_cons_self) same
          have back := least.1 same
          omega
        · exact ⟨member, least.1, least.2.2⟩
    · have less : cmp previous head = .lt := by
        rcases before_cases (previousBefore head mem_cons_self) with less | ⟨alike, -⟩
        · exact less
        · exact absurd alike same
      have onward := ih headSorted (forall_mem_cons.mpr ⟨inHead, inRest⟩)
      rw [runHeads, if_neg same, mem_cons, onward]
      constructor
      · rintro (rfl | ⟨member, least⟩)
        · refine ⟨mem_cons_self, ?_⟩
          simp only [forall_mem_cons]
          refine ⟨fun alike => absurd alike same, fun _ => le_rfl, fun other member alike => ?_⟩
          exact (later (headBefore other member)
            (order.eq_symm (inRest other member) inHead alike)).le
        · refine ⟨mem_cons_of_mem _ member, ?_⟩
          rw [forall_mem_cons]
          refine ⟨fun alike => ?_, least⟩
          have le : (cmp head index).isLE := by
            rcases before_cases (headBefore index member) with less | ⟨alike, -⟩
            · rw [less]
              rfl
            · rw [alike]
              rfl
          rw [order.lt_of_lt_of_isLE inPrevious inHead (inRest index member) less le] at alike
          cases alike
      · rintro ⟨member, least⟩
        rcases mem_cons.mp member with rfl | member
        · exact .inl rfl
        · rw [forall_mem_cons] at least
          exact .inr ⟨member, least.2⟩

theorem mem_runHeads_none (sorted : positions.Pairwise fun left right =>
      (cmp left right).then (compare left right) = .lt)
    (within : ∀ index ∈ positions, index ∈ domain) (index : Nat) :
    index ∈ runHeads cmp none positions ↔ index ∈ positions ∧
      ∀ other ∈ positions, cmp other index = .eq -> index ≤ other := by
  cases positions with
  | nil => simp [runHeads]
  | cons head rest =>
    rw [runHeads, mem_cons, mem_runHeads order sorted within, mem_cons]
    constructor
    · rintro (rfl | ⟨member, least⟩)
      · refine ⟨.inl rfl, ?_⟩
        rw [forall_mem_cons]
        refine ⟨fun _ => le_rfl, fun other member alike => ?_⟩
        have before := rel_of_pairwise_cons sorted member
        rcases before_cases before with less | ⟨-, less⟩
        · rw [order.eq_symm (within other (mem_cons_of_mem _ member))
            (within _ mem_cons_self) alike] at less
          cases less
        · exact less.le
      · exact ⟨.inr member, least⟩
    · rintro ⟨rfl | member, least⟩
      · exact .inl rfl
      · exact .inr ⟨member, least⟩

end RunHeads

section KeepFirst

variable {cmp : α -> α -> Ordering} {domain : Set α} (order : PreorderOn cmp domain)
  {items : List α} (within : ∀ item ∈ items, item ∈ domain)

theorem byIndex_eq {left right : Nat} (leftInside : left < items.length)
    (rightInside : right < items.length) :
    byIndex cmp items left right = cmp items[left] items[right] := by
  simp [byIndex, leftInside, rightInside]

include order within

theorem PreorderOn.byIndex : PreorderOn (byIndex cmp items) {index | index < items.length} where
  swap left inLeft right inRight := by
    change left < items.length at inLeft
    change right < items.length at inRight
    rw [byIndex_eq inLeft inRight, byIndex_eq inRight inLeft]
    exact order.swap _ (within _ (getElem_mem _)) _ (within _ (getElem_mem _))
  trans low inLow mid inMid high inHigh := by
    change low < items.length at inLow
    change mid < items.length at inMid
    change high < items.length at inHigh
    rw [byIndex_eq inLow inMid, byIndex_eq inMid inHigh, byIndex_eq inLow inHigh]
    exact order.trans _ (within _ (getElem_mem _)) _ (within _ (getElem_mem _)) _
      (within _ (getElem_mem _))

theorem PreorderOn.sortedPositions :
    (sortBy (fun left right => (Lib.byIndex cmp items left right).then (compare left right))
      (List.range items.length)).Pairwise fun left right =>
        (Lib.byIndex cmp items left right).then (compare left right) = .lt := by
  have lexicographic := (order.byIndex within).andThen (preorderOn_compare _)
  have shuffled := sortBy_perm (fun left right =>
    (Lib.byIndex cmp items left right).then (compare left right)) (List.range items.length)
  have sorted := lexicographic.sortBy_pairwise
    (show ∀ index ∈ List.range items.length, index ∈ {index | index < items.length} from
      fun index member => mem_range.mp member)
  refine (sorted.and (shuffled.nodup_iff.mpr nodup_range)).imp ?_
  rintro left right ⟨le, distinct⟩
  cases ordering : (Lib.byIndex cmp items left right).then (compare left right) with
  | lt => rfl
  | gt => rw [ordering] at le; cases le
  | eq =>
    have same := (Ordering.then_eq_eq.mp ordering).2
    exact absurd (Nat.compare_eq_eq.mp same) distinct

theorem mem_keptIndices (index : Nat) : index ∈ keptIndices cmp items ↔ index < items.length ∧
      ∀ other < items.length, Lib.byIndex cmp items other index = .eq -> index ≤ other := by
  have shuffled := sortBy_perm (fun left right =>
    (Lib.byIndex cmp items left right).then (compare left right)) (List.range items.length)
  have inside : ∀ index ∈ sortBy (fun left right =>
      (Lib.byIndex cmp items left right).then (compare left right)) (List.range items.length),
      index ∈ {index | index < items.length} := fun index member =>
    mem_range.mp (shuffled.mem_iff.mp member)
  rw [keptIndices, mem_runHeads_none (order.byIndex within) (order.sortedPositions within) inside,
    shuffled.mem_iff, mem_range]
  refine and_congr_right fun _ => forall_congr' fun other => ?_
  rw [shuffled.mem_iff, mem_range]

theorem keepFirst_eq : keepFirst cmp items = firstOfEach cmp items := by
  unfold keepFirst firstOfEach
  congr 1
  refine filter_congr fun entry member => ?_
  obtain ⟨item, index⟩ := entry
  have found : items[index]? = some item := mem_zipIdx_iff_getElem?.mp member
  obtain ⟨inside, rfl⟩ := List.getElem?_eq_some_iff.mp found
  rw [Bool.eq_iff_iff, contains_iff_mem, mem_keptIndices order within, all_eq_true]
  constructor
  · rintro ⟨-, least⟩ earlier member
    obtain ⟨other, before, rfl⟩ := mem_take_iff_getElem.mp member
    have least := least other (by omega)
    rw [byIndex_eq (by omega) inside] at least
    simp only [bne_iff_ne]
    intro same
    have := least same
    omega
  · intro fresh
    refine ⟨inside, fun other otherInside same => ?_⟩
    by_contra before
    rw [byIndex_eq otherInside inside] at same
    have taken : items[other] ∈ items.take index :=
      mem_take_iff_getElem.mpr ⟨other, by omega, rfl⟩
    simpa [same] using fresh _ taken

end KeepFirst

end InlaySql.Lib
