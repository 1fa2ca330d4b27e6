import InlaySql.Lib.Arrivals

/-!
# One of equal items, and whether one is equal

A sort by comparator and position puts equal items side by side, so one pass over the runs
keeps the first of each class or the last of each; and a binary search of sorted items
finds one that is equal exactly when there is one.
-/

namespace InlaySql.Lib

open List

variable {α : Type}

/-- Which of equal items survives. -/
inductive Occurrence where
  | first
  | last
  deriving DecidableEq, Repr

def Occurrence.survivor : Occurrence -> Nat -> Nat -> Nat
  | .first, head, _ => head
  | .last, _, final => final

/-- The survivor of each run of positions equal to the run's head, where the run entered
reaches from `head` to `final`. -/
def runSurvivorsFrom (keep : Occurrence) (cmp : Nat → Nat → Ordering) : Nat → Nat → List Nat → List Nat
  | head, final, [] => [keep.survivor head final]
  | head, final, index :: rest =>
    if cmp head index = .eq then runSurvivorsFrom keep cmp head index rest
    else keep.survivor head final :: runSurvivorsFrom keep cmp index index rest

def runSurvivors (keep : Occurrence) (cmp : Nat -> Nat -> Ordering) : List Nat -> List Nat
  | [] => []
  | index :: rest => runSurvivorsFrom keep cmp index index rest

/-- For each item, whether it survives. -/
def keepMask (keep : Occurrence) (cmp : α -> α -> Ordering) (items : List α) : List Bool :=
  let order := sortBy (fun left right => (byIndex cmp items left right).then (compare left right))
    (List.range items.length)
  (List.range items.length).map (runSurvivors keep (byIndex cmp items) order).contains

/-- The items a mask keeps. -/
def retain (items : List α) (mask : List Bool) : List α :=
  (items.zip mask).filterMap fun entry => if entry.2 then some entry.1 else none

/-- The items that no later item equals. -/
def lastOfEach (cmp : α -> α -> Ordering) (items : List α) : List α :=
  (items.zipIdx.filter fun entry =>
    (items.drop (entry.2 + 1)).all fun later => cmp later entry.1 != .eq).map Prod.fst

/-! ## The runSurvivors -/

section Survivors

variable {cmp : Nat -> Nat -> Ordering} {domain : Set Nat}

theorem runSurvivorsFrom_first (head final : Nat) (positions : List Nat) :
    runSurvivorsFrom .first cmp head final positions = head :: runHeads cmp (some head) positions := by
  induction positions generalizing head final with
  | nil => rfl
  | cons index rest ih =>
    rw [runSurvivorsFrom, runHeads]
    split
    · exact ih head index
    · rw [ih index index]
      rfl

theorem runSurvivors_first (positions : List Nat) :
    runSurvivors .first cmp positions = runHeads cmp none positions := by
  cases positions with
  | nil => rfl
  | cons index rest => exact runSurvivorsFrom_first index index rest

variable (order : PreorderOn cmp domain)
include order

theorem mem_runSurvivorsFrom_last {head final : Nat} {positions : List Nat}
    (sorted : (final :: positions).Pairwise fun left right =>
      (cmp left right).then (compare left right) = .lt)
    (inHead : head ∈ domain) (within : ∀ index ∈ final :: positions, index ∈ domain)
    (entered : cmp head final = .eq) (index : Nat) :
    index ∈ runSurvivorsFrom .last cmp head final positions ↔ index ∈ final :: positions ∧
      ∀ other ∈ final :: positions, cmp other index = .eq -> other ≤ index := by
  induction positions generalizing head final with
  | nil =>
    rw [runSurvivorsFrom, mem_singleton, mem_singleton]
    constructor
    · rintro rfl
      exact ⟨rfl, fun other member _ => (mem_singleton.mp member).le⟩
    · exact fun found => found.1
  | cons next rest ih =>
    obtain ⟨finalBefore, nextSorted⟩ := pairwise_cons.mp sorted
    obtain ⟨inFinal, inRest⟩ := forall_mem_cons.mp within
    have inNext := inRest next mem_cons_self
    have apart (less : cmp final next = .lt) : ∀ other ∈ next :: rest, cmp final other = .lt := by
      intro other member
      rcases mem_cons.mp member with rfl | later
      · exact less
      · refine order.lt_of_lt_of_isLE inFinal inNext (inRest other member) less ?_
        rcases before_cases (rel_of_pairwise_cons nextSorted later) with less | ⟨same, -⟩
        · rw [less]
          rfl
        · rw [same]
          rfl
    rw [runSurvivorsFrom]
    by_cases same : cmp head next = .eq
    · have alike : cmp final next = .eq :=
        order.eq_trans inFinal inHead inNext (order.eq_symm inHead inFinal entered) same
      have below : ∀ other ∈ next :: rest, cmp final other = .eq -> final < other := by
        intro other member equal
        rcases before_cases (finalBefore other member) with less | ⟨-, less⟩
        · rw [less] at equal
          cases equal
        · exact less
      rw [if_pos same, ih nextSorted inHead inRest same]
      constructor
      · rintro ⟨member, greatest⟩
        refine ⟨mem_cons_of_mem _ member, forall_mem_cons.mpr ⟨fun equal => ?_, greatest⟩⟩
        exact (below index member equal).le
      · rintro ⟨member, greatest⟩
        rcases mem_cons.mp member with rfl | member
        · have back := greatest next (by simp) (order.eq_symm inFinal inNext alike)
          have past := below next mem_cons_self alike
          omega
        · exact ⟨member, (forall_mem_cons.mp greatest).2⟩
    · have less : cmp final next = .lt := by
        rcases before_cases (finalBefore next mem_cons_self) with less | ⟨equal, -⟩
        · exact less
        · exact absurd (order.eq_trans inHead inFinal inNext entered equal) same
      rw [if_neg same, mem_cons, ih nextSorted inNext inRest (order.refl inNext),
        mem_cons (a := index) (b := final)]
      constructor
      · rintro (rfl | ⟨member, greatest⟩)
        · refine ⟨.inl rfl, forall_mem_cons.mpr ⟨fun _ => le_rfl, fun other member equal => ?_⟩⟩
          have swapped := order.eq_symm (inRest other member) inFinal equal
          rw [apart less other member] at swapped
          cases swapped
        · refine ⟨.inr member, forall_mem_cons.mpr ⟨fun equal => ?_, greatest⟩⟩
          rw [apart less index member] at equal
          cases equal
      · rintro ⟨rfl | member, greatest⟩
        · exact .inl rfl
        · exact .inr ⟨member, (forall_mem_cons.mp greatest).2⟩

end Survivors

/-! ## The items kept -/

theorem retain_map_range (items : List α) (keeps : Nat -> Bool) :
    retain items ((List.range items.length).map keeps) =
      (items.zipIdx.filter fun entry => keeps entry.2).map Prod.fst := by
  rw [retain, range_eq_range', zip_map_right, <- zipIdx_eq_zip_range', filterMap_map,
    <- filterMap_eq_map, filterMap_filter]
  refine filterMap_congr fun entry _ => ?_
  cases kept : keeps entry.2 <;> simp [kept]

section Kept

variable {cmp : α -> α -> Ordering} {domain : Set α} (order : PreorderOn cmp domain)
  {items : List α} (within : ∀ item ∈ items, item ∈ domain)

theorem retain_keepMask_first : retain items (keepMask .first cmp items) = keepFirst cmp items := by
  unfold keepMask
  dsimp only
  rw [retain_map_range, runSurvivors_first]
  rfl

include order within

theorem retain_first : retain items (keepMask .first cmp items) = firstOfEach cmp items := by
  rw [retain_keepMask_first, keepFirst_eq order within]

theorem retain_last : retain items (keepMask .last cmp items) = lastOfEach cmp items := by
  have positions := order.byIndex within
  unfold keepMask
  dsimp only
  rw [retain_map_range]
  unfold lastOfEach
  congr 1
  refine filter_congr fun entry member => ?_
  obtain ⟨item, index⟩ := entry
  have found : items[index]? = some item := mem_zipIdx_iff_getElem?.mp member
  obtain ⟨inside, rfl⟩ := List.getElem?_eq_some_iff.mp found
  have sorted := order.sortedPositions within
  have shuffled := sortBy_perm (fun left right =>
    (Lib.byIndex cmp items left right).then (compare left right)) (List.range items.length)
  generalize sortBy (fun left right => (Lib.byIndex cmp items left right).then (compare left right))
    (List.range items.length) = sortedIndices at sorted shuffled
  have inDomain : ∀ index ∈ sortedIndices, index ∈ {index | index < items.length} :=
    fun index member => mem_range.mp (shuffled.mem_iff.mp member)
  have survives : index ∈ runSurvivors .last (Lib.byIndex cmp items) sortedIndices ↔
      ∀ other < items.length, Lib.byIndex cmp items other index = .eq -> other ≤ index := by
    have here : index ∈ sortedIndices := shuffled.mem_iff.mpr (mem_range.mpr inside)
    cases sortedIndices with
    | nil => cases here
    | cons head rest =>
      rw [runSurvivors, mem_runSurvivorsFrom_last positions sorted (inDomain head mem_cons_self)
        inDomain (positions.refl (inDomain head mem_cons_self)), and_iff_right here]
      refine forall_congr' fun other => ?_
      rw [shuffled.mem_iff, mem_range]
  rw [Bool.eq_iff_iff, contains_iff_mem, survives, all_eq_true]
  constructor
  · intro greatest later after
    obtain ⟨offset, offsetInside, rfl⟩ := getElem_of_mem after
    rw [length_drop] at offsetInside
    have past := greatest (index + 1 + offset) (by omega)
    rw [byIndex_eq (by omega) inside] at past
    rw [getElem_drop, bne_iff_ne]
    intro same
    have := past same
    omega
  · intro fresh other otherInside same
    by_contra after
    rw [byIndex_eq otherInside inside] at same
    have dropped : items[other] ∈ items.drop (index + 1) := by
      refine mem_drop_iff_getElem.mpr ⟨other - (index + 1), by omega, ?_⟩
      congr 1
      omega
    simpa [same] using fresh _ dropped

theorem PreorderOn.existsUnique_mem_lastOfEach {item : α} (member : item ∈ items) :
    ∃! kept, kept ∈ lastOfEach cmp items ∧ cmp kept item = .eq := by
  have mem_iff (kept : α) : kept ∈ lastOfEach cmp items ↔ ∃ index, ∃ inside : index < items.length,
      items[index] = kept ∧ ∀ later, ∀ past : later < items.length, index < later ->
        cmp items[later] kept ≠ .eq := by
    unfold lastOfEach
    constructor
    · intro found
      obtain ⟨⟨value, index⟩, passed, rfl⟩ := mem_map.mp found
      obtain ⟨entry, fresh⟩ := mem_filter.mp passed
      obtain ⟨inside, same⟩ := List.getElem?_eq_some_iff.mp (mem_zipIdx_iff_getElem?.mp entry)
      refine ⟨index, inside, same, fun later past after => ?_⟩
      have dropped : items[later] ∈ items.drop (index + 1) := by
        refine mem_drop_iff_getElem.mpr ⟨later - (index + 1), by omega, ?_⟩
        congr 1
        omega
      simpa using all_eq_true.mp fresh _ dropped
    · rintro ⟨index, inside, rfl, fresh⟩
      refine mem_map.mpr ⟨(items[index], index), mem_filter.mpr ⟨?_, ?_⟩, rfl⟩
      · exact mem_zipIdx_iff_getElem?.mpr (getElem?_eq_getElem inside)
      · refine all_eq_true.mpr fun later dropped => ?_
        obtain ⟨offset, offsetInside, rfl⟩ := mem_drop_iff_getElem.mp dropped
        simpa using fresh (index + 1 + offset) (by omega) (by omega)
  have inDomain {index : Nat} (inside : index < items.length) : items[index] ∈ domain :=
    within _ (getElem_mem inside)
  -- Of the positions equal to the item the greatest has no equal after it.
  classical
  obtain ⟨position, positionInside, rfl⟩ := getElem_of_mem member
  let equals := (Finset.range items.length).filter fun index =>
    ∃ inside : index < items.length, cmp items[index] items[position] = .eq
  have here : position ∈ equals := Finset.mem_filter.mpr
    ⟨Finset.mem_range.mpr positionInside, positionInside, order.refl (inDomain positionInside)⟩
  obtain ⟨greatest, isGreatest, above⟩ := equals.exists_max_image id ⟨position, here⟩
  obtain ⟨-, greatestInside, same⟩ := Finset.mem_filter.mp isGreatest
  refine ⟨items[greatest], ⟨(mem_iff _).mpr ⟨greatest, greatestInside, rfl, ?_⟩, same⟩, ?_⟩
  · intro later past after alike
    have chained := order.eq_trans (inDomain past) (inDomain greatestInside) (inDomain positionInside)
      alike same
    have below := above later (Finset.mem_filter.mpr ⟨Finset.mem_range.mpr past, past, chained⟩)
    exact absurd below (Nat.not_le.mpr after)
  · rintro other ⟨isOther, otherSame⟩
    obtain ⟨index, inside, rfl, fresh⟩ := (mem_iff _).mp isOther
    have below := above index (Finset.mem_filter.mpr ⟨Finset.mem_range.mpr inside, inside, otherSame⟩)
    rcases Nat.lt_or_eq_of_le below with before | equal
    · have alike := order.eq_trans (inDomain greatestInside) (inDomain positionInside)
        (inDomain inside) same (order.eq_symm (inDomain inside) (inDomain positionInside) otherSame)
      exact absurd alike (fresh greatest greatestInside before)
    · simp only [id] at equal
      subst equal
      rfl

end Kept

/-! ## A binary search -/

/-- The loop of a binary search: `size` items from `base` on are left. -/
def searchFrom (probe : Nat -> Ordering) : Nat -> Nat -> Nat -> Nat
  | 0, base, _ => base
  | turns + 1, base, size =>
    if 1 < size then
      searchFrom probe turns (if probe (base + size / 2) = .gt then base else base + size / 2)
        (size - size / 2)
    else base

/-- `binary_search_by`, where `probe` compares an item to what is sought. -/
def binarySearchBy (probe : α -> Ordering) (items : List α) : Bool :=
  let at' index := ((items[index]?).map probe).getD .gt
  !items.isEmpty && at' (searchFrom at' items.length 0 items.length) == .eq

/-- The search ends at a position past which everything is above, and which is not above
itself unless it is the first. -/
theorem searchFrom_spec {probe : Nat -> Ordering} {total : Nat}
    (upward : ∀ low high, low ≤ high -> high < total -> probe low = .gt -> probe high = .gt)
    {turns base size : Nat} (left : 0 < size) (enough : size ≤ turns) (inside : base + size ≤ total)
    (below : base = 0 ∨ probe base ≠ .gt)
    (above : ∀ index, base + size ≤ index -> index < total -> probe index = .gt) :
    ∃ found < total, searchFrom probe turns base size = found ∧ (found = 0 ∨ probe found ≠ .gt) ∧
      ∀ index, found < index -> index < total -> probe index = .gt := by
  induction turns generalizing base size with
  | zero => omega
  | succ turns ih =>
    rw [searchFrom]
    by_cases more : 1 < size
    · rw [if_pos more]
      by_cases greater : probe (base + size / 2) = .gt
      · rw [if_pos greater]
        refine ih (by omega) (by omega) (by omega) below fun index past inside => ?_
        exact upward (base + size / 2) index (by omega) inside greater
      · rw [if_neg greater]
        refine ih (by omega) (by omega) (by omega) (.inr greater) fun index past inside => ?_
        exact above index (by omega) inside
    · rw [if_neg more]
      exact ⟨base, by omega, rfl, below, fun index past inside => above index (by omega) inside⟩

theorem binarySearchBy_iff {probe : α -> Ordering} {items : List α}
    (sorted : items.Pairwise fun left right =>
      (probe left = .gt -> probe right = .gt) ∧ (probe right = .lt -> probe left = .lt)) :
    binarySearchBy probe items = true ↔ ∃ item ∈ items, probe item = .eq := by
  let here (index : Nat) : Ordering := ((items[index]?).map probe).getD .gt
  have here_eq {index : Nat} (inside : index < items.length) : here index = probe items[index] := by
    simp [here, inside]
  have ordered {low high : Nat} (before : low < high) (inside : high < items.length) :=
    pairwise_iff_getElem.mp sorted low high (by omega) inside before
  rw [binarySearchBy, Bool.and_eq_true, beq_iff_eq]
  change _ ∧ here (searchFrom here items.length 0 items.length) = .eq ↔ _
  constructor
  · rintro ⟨nonempty, found⟩
    generalize searchFrom here items.length 0 items.length = position at found
    by_cases inside : position < items.length
    · rw [here_eq inside] at found
      exact ⟨_, getElem_mem inside, found⟩
    · rw [show here position = .gt by simp [here, getElem?_eq_none (Nat.le_of_not_lt inside)]]
        at found
      cases found
  · rintro ⟨item, member, equal⟩
    obtain ⟨position, inside, rfl⟩ := getElem_of_mem member
    have upward : ∀ low high, low ≤ high → high < items.length → here low = .gt → here high = .gt := by
      intro low high le highInside greater
      rcases Nat.lt_or_eq_of_le le with before | rfl
      · rw [here_eq (by omega)] at greater
        rw [here_eq highInside]
        exact (ordered before highInside).1 greater
      · exact greater
    obtain ⟨found, foundInside, ends, notAbove, past⟩ := searchFrom_spec upward
      (by omega) le_rfl (Nat.zero_add items.length).le (.inl rfl) fun index _ _ => by omega
    refine ⟨by simpa using ne_nil_of_length_pos (by omega), ?_⟩
    rw [ends]
    -- The equal item is not past the end of the search; if it is before, sortedness decides.
    have notPast : ¬ found < position := by
      intro after
      have greater := past position after inside
      rw [here_eq inside, equal] at greater
      cases greater
    rcases Nat.lt_or_eq_of_le (Nat.le_of_not_lt notPast) with before | rfl
    · rcases notAbove with rfl | notAbove
      · omega
      · rw [here_eq foundInside] at notAbove ⊢
        have notLess : probe items[found] ≠ .lt := fun less => by
          rw [(ordered before foundInside).2 less] at equal
          cases equal
        cases told : probe items[found] with
        | eq => rfl
        | lt => exact absurd told notLess
        | gt => exact absurd told notAbove
    · rw [here_eq inside, equal]

theorem PreorderOn.binarySearchBy_sortBy {cmp : α -> α -> Ordering} {domain : Set α}
    (order : PreorderOn cmp domain) {items : List α} (within : ∀ item ∈ items, item ∈ domain)
    {item : α} (inItem : item ∈ domain) :
    binarySearchBy (fun probe => cmp probe item) (sortBy cmp items) = true ↔
      ∃ other ∈ items, cmp other item = .eq := by
  have perm := sortBy_perm cmp items
  have inSorted : ∀ other ∈ sortBy cmp items, other ∈ domain := fun other member =>
    within other (perm.mem_iff.mp member)
  rw [binarySearchBy_iff]
  · exact exists_congr fun other => and_congr_left fun _ => perm.mem_iff
  · refine (order.sortBy_pairwise within).imp_of_mem fun {left right} inLeft inRight le => ?_
    have isLeft := inSorted left inLeft
    have isRight := inSorted right inRight
    constructor
    · intro greater
      have below : cmp item left = .lt := by
        rw [order.swap item inItem left isLeft, greater]
        rfl
      rw [order.swap right isRight item inItem,
        order.lt_of_lt_of_isLE inItem isLeft isRight below le]
      rfl
    · intro less
      cases told : cmp left item with
      | lt => rfl
      | eq =>
        have chained := order.congr_left isLeft inItem isRight told
        have above : cmp item right = .gt := by
          rw [order.swap item inItem right isRight, less]
          rfl
        rw [chained, above] at le
        cases le
      | gt =>
        have below : cmp item left = .lt := by
          rw [order.swap item inItem left isLeft, told]
          rfl
        have chained := order.lt_of_lt_of_isLE inItem isLeft isRight below le
        rw [order.swap item inItem right isRight, less] at chained
        cases chained

end InlaySql.Lib
