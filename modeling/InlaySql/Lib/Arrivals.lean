import InlaySql.Lib.Preorder

/-!
# Items in any order of arrival

What a pass over items makes of them: the first of each class, a running extreme, a table
of groups. On items a comparator orders, a permutation of the arrivals changes which of
equal items stands for its class and nothing else.
-/

namespace InlaySql.Lib

open List

variable {α κ : Type}

/-! ## The first of each class -/

section FirstOfEach

variable {cmp : α -> α -> Ordering} {items : List α}

variable {item : α}

theorem mem_firstOfEach (member : item ∈ firstOfEach cmp items) :
    ∃ index, ∃ inside : index < items.length, items[index] = item ∧
      ∀ earlier ∈ items.take index, cmp earlier item ≠ .eq := by
  obtain ⟨⟨value, index⟩, kept, rfl⟩ := mem_map.mp member
  obtain ⟨entry, fresh⟩ := mem_filter.mp kept
  obtain ⟨inside, found⟩ :=
    List.getElem?_eq_some_iff.mp (mem_zipIdx_iff_getElem?.mp entry)
  refine ⟨index, inside, found, fun earlier before => ?_⟩
  simpa using all_eq_true.mp fresh earlier before

theorem getElem_mem_firstOfEach {index : Nat} (inside : index < items.length)
    (fresh : ∀ earlier ∈ items.take index, cmp earlier items[index] ≠ .eq) :
    items[index] ∈ firstOfEach cmp items := by
  refine mem_map.mpr ⟨(items[index], index), mem_filter.mpr ⟨?_, ?_⟩, rfl⟩
  · exact mem_zipIdx_iff_getElem?.mpr (getElem?_eq_getElem inside)
  · exact all_eq_true.mpr fun earlier before => by simpa using fresh earlier before

theorem mem_of_mem_firstOfEach (member : item ∈ firstOfEach cmp items) : item ∈ items := by
  obtain ⟨index, inside, rfl, -⟩ := mem_firstOfEach member
  exact getElem_mem inside

variable {domain : Set α} (order : PreorderOn cmp domain)
  (within : ∀ item ∈ items, item ∈ domain)
include order within

theorem PreorderOn.eq_of_mem_firstOfEach {left right : α}
    (inLeft : left ∈ firstOfEach cmp items) (inRight : right ∈ firstOfEach cmp items)
    (same : cmp left right = .eq) : left = right := by
  obtain ⟨low, lowInside, rfl, lowFresh⟩ := mem_firstOfEach inLeft
  obtain ⟨high, highInside, rfl, highFresh⟩ := mem_firstOfEach inRight
  rcases Nat.lt_trichotomy low high with before | rfl | after
  · exact absurd same (highFresh _ (mem_take_iff_getElem.mpr ⟨low, by omega, rfl⟩))
  · rfl
  · have back := order.eq_symm (within _ (getElem_mem _)) (within _ (getElem_mem _)) same
    exact absurd back (lowFresh _ (mem_take_iff_getElem.mpr ⟨high, by omega, rfl⟩))

theorem PreorderOn.exists_mem_firstOfEach (member : item ∈ items) :
    ∃ kept ∈ firstOfEach cmp items, cmp kept item = .eq := by
  classical
  obtain ⟨position, positionInside, rfl⟩ := getElem_of_mem member
  have exists_equal : ∃ index, ∃ inside : index < items.length,
      cmp items[index] items[position] = .eq :=
    ⟨position, positionInside, order.refl (within _ member)⟩
  obtain ⟨inside, same⟩ := Nat.find_spec exists_equal
  refine ⟨_, getElem_mem_firstOfEach inside fun earlier before alike => ?_, same⟩
  obtain ⟨other, otherBefore, rfl⟩ := mem_take_iff_getElem.mp before
  have chained := order.eq_trans (within _ (getElem_mem _)) (within _ (getElem_mem _))
    (within _ member) alike same
  exact Nat.find_min exists_equal (by omega) ⟨by omega, chained⟩

theorem PreorderOn.firstOfEach_perm {others : List α} (perm : items.Perm others)
    (member : item ∈ firstOfEach cmp items) :
    ∃! other, other ∈ firstOfEach cmp others ∧ cmp item other = .eq := by
  have withinOthers : ∀ item ∈ others, item ∈ domain := fun item member =>
    within item (perm.mem_iff.mpr member)
  have inItem := within item (mem_of_mem_firstOfEach member)
  obtain ⟨kept, isKept, same⟩ := order.exists_mem_firstOfEach withinOthers
    (perm.mem_iff.mp (mem_of_mem_firstOfEach member))
  have inKept := withinOthers kept (mem_of_mem_firstOfEach isKept)
  refine ⟨kept, ⟨isKept, order.eq_symm inKept inItem same⟩, ?_⟩
  rintro other ⟨isOther, alike⟩
  have inOther := withinOthers other (mem_of_mem_firstOfEach isOther)
  exact order.eq_of_mem_firstOfEach withinOthers isOther isKept
    (order.eq_trans inOther inItem inKept (order.eq_symm inItem inOther alike)
      (order.eq_symm inKept inItem same))

end FirstOfEach

/-! ## A running extreme -/

/-- Keep the best so far unless the next item compares to it as `taken`. -/
def extremeStep (cmp : α -> α -> Ordering) (taken : Ordering) (best : Option α) (item : α) :
    Option α :=
  match best with
  | none => some item
  | some current => if cmp item current = taken then some item else best

section Extreme

variable {cmp : α -> α -> Ordering} {domain : Set α} (order : PreorderOn cmp domain)
  {taken : Ordering} (strict : taken = .lt ∨ taken = .gt)
include order strict

theorem PreorderOn.ne_trans {low mid high : α} (inLow : low ∈ domain) (inMid : mid ∈ domain)
    (inHigh : high ∈ domain) (first : cmp low mid ≠ taken) (second : cmp mid high ≠ taken) :
    cmp low high ≠ taken := by
  have le_iff : ∀ ordering : Ordering, ordering ≠ .gt ↔ ordering.isLE := by decide
  rcases strict with rfl | rfl
  · have ge_iff : ∀ ordering : Ordering, ordering ≠ .lt ↔ ordering.swap.isLE := by decide
    rw [ge_iff] at first second ⊢
    rw [<- order.swap mid inMid low inLow] at first
    rw [<- order.swap high inHigh mid inMid] at second
    rw [<- order.swap high inHigh low inLow]
    exact order.trans _ inHigh _ inMid _ inLow second first
  · rw [le_iff] at first second ⊢
    exact order.trans _ inLow _ inMid _ inHigh first second

theorem PreorderOn.foldl_extremeStep {items : List α} {current : α}
    (within : ∀ item ∈ current :: items, item ∈ domain) :
    ∃ best ∈ current :: items, items.foldl (extremeStep cmp taken) (some current) = some best ∧
      ∀ item ∈ current :: items, cmp item best ≠ taken := by
  have refl : ∀ item ∈ domain, cmp item item ≠ taken := by
    intro item member same
    rw [order.refl member] at same
    rcases strict with rfl | rfl <;> cases same
  induction items generalizing current with
  | nil =>
    refine ⟨current, mem_cons_self, rfl, fun item member => ?_⟩
    rw [mem_singleton.mp member]
    exact refl _ (within _ mem_cons_self)
  | cons head rest ih =>
    have inCurrent := within current mem_cons_self
    have inHead := within head (mem_cons_of_mem _ mem_cons_self)
    have inRest : ∀ item ∈ rest, item ∈ domain := fun item member =>
      within item (mem_cons_of_mem _ (mem_cons_of_mem _ member))
    by_cases better : cmp head current = taken
    · obtain ⟨best, member, runs, extreme⟩ :=
        ih (forall_mem_cons.mpr ⟨inHead, inRest⟩)
      have inBest := (forall_mem_cons.mpr ⟨inHead, inRest⟩ : ∀ item ∈ head :: rest,
        item ∈ domain) best member
      refine ⟨best, mem_cons_of_mem _ member, ?_, ?_⟩
      · rw [foldl_cons, extremeStep, if_pos better, runs]
      · refine forall_mem_cons.mpr ⟨?_, extreme⟩
        refine order.ne_trans strict inCurrent inHead inBest ?_ (extreme head mem_cons_self)
        rw [order.swap current inCurrent head inHead, better]
        rcases strict with rfl | rfl <;> decide
    · obtain ⟨best, member, runs, extreme⟩ :=
        ih (forall_mem_cons.mpr ⟨inCurrent, inRest⟩)
      have inBest := (forall_mem_cons.mpr ⟨inCurrent, inRest⟩ : ∀ item ∈ current :: rest,
        item ∈ domain) best member
      rw [forall_mem_cons] at extreme
      refine ⟨best, ?_, ?_, ?_⟩
      · rcases mem_cons.mp member with rfl | member
        · exact mem_cons_self
        · exact mem_cons_of_mem _ (mem_cons_of_mem _ member)
      · rw [foldl_cons, extremeStep, if_neg better, runs]
      · refine forall_mem_cons.mpr ⟨extreme.1, forall_mem_cons.mpr ⟨?_, extreme.2⟩⟩
        exact order.ne_trans strict inHead inCurrent inBest better extreme.1

theorem PreorderOn.extreme_perm {items others : List α} (perm : items.Perm others)
    (within : ∀ item ∈ items, item ∈ domain) :
    Option.Rel (fun left right => cmp left right = .eq)
      (items.foldl (extremeStep cmp taken) none) (others.foldl (extremeStep cmp taken) none) := by
  cases items with
  | nil =>
    rw [<- perm.nil_eq]
    exact .none
  | cons first rest =>
    cases others with
    | nil => cases perm.symm.nil_eq
    | cons other more =>
      have withinOthers : ∀ item ∈ other :: more, item ∈ domain := fun item member =>
        within item (perm.mem_iff.mpr member)
      obtain ⟨best, member, runs, extreme⟩ := order.foldl_extremeStep strict within
      obtain ⟨best', member', runs', extreme'⟩ := order.foldl_extremeStep strict withinOthers
      rw [foldl_cons, foldl_cons, extremeStep, extremeStep, runs, runs']
      refine .some ?_
      have above := extreme best' (perm.mem_iff.mpr member')
      have under := extreme' best (perm.mem_iff.mp member)
      rw [order.swap best' (withinOthers best' member') best (within best member)] at above
      rcases strict with rfl | rfl <;> revert above under <;>
        cases cmp best best' <;> decide

end Extreme

/-! ## A table of groups -/

/-- `same` is an equivalence on `domain`. -/
structure EquivalenceOn (same : κ -> κ -> Bool) (domain : Set κ) : Prop where
  refl : ∀ key ∈ domain, same key key = true
  symm : ∀ left ∈ domain, ∀ right ∈ domain, same left right = true -> same right left = true
  trans : ∀ low ∈ domain, ∀ mid ∈ domain, ∀ high ∈ domain,
    same low mid = true -> same mid high = true -> same low high = true

/-- Put an item in the first group of its key, or open one. -/
def groupInsert (same : κ -> κ -> Bool) (key : κ) (item : α) :
    List (κ × List α) -> List (κ × List α)
  | [] => [(key, [item])]
  | group :: rest =>
    if same key group.1 then (group.1, group.2 ++ [item]) :: rest
    else group :: groupInsert same key item rest

/-- The groups of a list of items, in the order they were opened. -/
def groupItems (same : κ -> κ -> Bool) (key : α -> κ) (items : List α) : List (κ × List α) :=
  items.foldl (fun groups item => groupInsert same (key item) item groups) []

/-- A table that holds each of `items` in the one group of its key. -/
structure Grouped (same : κ -> κ -> Bool) (key : α -> κ) (items : List α)
    (groups : List (κ × List α)) : Prop where
  apart : (groups.map Prod.fst).Pairwise fun first second => same first second = false
  opened : ∀ group ∈ groups, ∃ item ∈ items, group.1 = key item
  members : ∀ group ∈ groups, group.2 = items.filter fun item => same (key item) group.1
  covered : ∀ item ∈ items, ∃ group ∈ groups, same (key item) group.1 = true

section Groups

variable {same : κ -> κ -> Bool} {domain : Set κ} {key : α -> κ}

theorem groupInsert_cases (same : κ → κ → Bool) (newKey : κ) (item : α) (groups : List (κ × List α)) :
    (∃ front group back, groups = front ++ group :: back ∧ same newKey group.1 = true ∧
      (∀ other ∈ front, same newKey other.1 = false) ∧
      groupInsert same newKey item groups = front ++ (group.1, group.2 ++ [item]) :: back) ∨
    ((∀ other ∈ groups, same newKey other.1 = false) ∧
      groupInsert same newKey item groups = groups ++ [(newKey, [item])]) := by
  induction groups with
  | nil => exact .inr ⟨by simp, rfl⟩
  | cons head rest ih =>
    by_cases here : same newKey head.1 = true
    · exact .inl ⟨[], head, rest, rfl, here, by simp, by simp [groupInsert, here]⟩
    · have other : same newKey head.1 = false := by simpa using here
      rcases ih with ⟨front, group, back, rfl, found, before, runs⟩ | ⟨none, runs⟩
      · refine .inl ⟨head :: front, group, back, rfl, found, ?_, ?_⟩
        · exact forall_mem_cons.mpr ⟨other, before⟩
        · simp [groupInsert, other, runs]
      · refine .inr ⟨forall_mem_cons.mpr ⟨other, none⟩, ?_⟩
        simp [groupInsert, other, runs]

variable (equivalence : EquivalenceOn same domain)
include equivalence

variable {items : List α} {groups : List (κ × List α)}

theorem Grouped.insert (grouped : Grouped same key items groups) {item : α}
    (within : ∀ other ∈ items ++ [item], key other ∈ domain) :
    Grouped same key (items ++ [item]) (groupInsert same (key item) item groups) := by
  have inItems : ∀ other ∈ items, key other ∈ domain := fun other member =>
    within other (mem_append_left _ member)
  have inItem : key item ∈ domain := within item (by simp)
  have inGroups : ∀ group ∈ groups, group.1 ∈ domain := by
    intro group member
    obtain ⟨opener, isOpener, opened⟩ := grouped.opened group member
    rw [opened]
    exact inItems opener isOpener
  have apartFrom : ∀ {left right}, left ∈ domain -> right ∈ domain -> same left right = false ->
      same (key item) left = true -> same (key item) right = false := by
    intro left right inLeft inRight different found
    by_contra other
    have chained := equivalence.trans _ inLeft _ inItem _ inRight
      (equivalence.symm _ inItem _ inLeft found) (by simpa using other)
    rw [different] at chained
    cases chained
  rcases groupInsert_cases same (key item) item groups with
    ⟨front, group, back, rfl, found, before, runs⟩ | ⟨fresh, runs⟩
  · have inGroup := inGroups group (by simp)
    have after : ∀ other ∈ back, same (key item) other.1 = false := by
      intro other member
      have apart := grouped.apart
      rw [map_append, map_cons, pairwise_append, pairwise_cons] at apart
      exact apartFrom inGroup (inGroups other (by simp [member]))
        (apart.2.1.1 other.1 (mem_map_of_mem member)) found
    rw [runs]
    refine ⟨by simpa using grouped.apart, ?_, ?_, ?_⟩
    · intro other member
      have old : ∃ known ∈ front ++ group :: back, known.1 = other.1 := by
        simp only [mem_append, mem_cons] at member
        rcases member with inFront | rfl | inBack
        · exact ⟨other, by simp [inFront], rfl⟩
        · exact ⟨group, by simp, rfl⟩
        · exact ⟨other, by simp [inBack], rfl⟩
      obtain ⟨known, isKnown, alike⟩ := old
      obtain ⟨opener, isOpener, opened⟩ := grouped.opened known isKnown
      exact ⟨opener, mem_append_left _ isOpener, by rw [<- alike, opened]⟩
    · intro other member
      simp only [mem_append, mem_cons] at member
      rw [filter_append]
      rcases member with inFront | rfl | inBack
      · rw [grouped.members other (by simp [inFront])]
        simp [before other inFront]
      · rw [grouped.members group (by simp)]
        simp [found]
      · rw [grouped.members other (by simp [inBack])]
        simp [after other inBack]
    · intro other member
      rcases mem_append.mp member with inItems | isItem
      · obtain ⟨known, isKnown, holds⟩ := grouped.covered other inItems
        simp only [mem_append, mem_cons] at isKnown
        rcases isKnown with inFront | rfl | inBack
        · exact ⟨known, by simp [inFront], holds⟩
        · exact ⟨_, mem_append_right _ mem_cons_self, holds⟩
        · exact ⟨known, by simp [inBack], holds⟩
      · rw [mem_singleton.mp isItem]
        exact ⟨_, mem_append_right _ mem_cons_self, found⟩
  · rw [runs]
    refine ⟨?_, ?_, ?_, ?_⟩
    · rw [map_append, pairwise_append]
      refine ⟨grouped.apart, by simp, ?_⟩
      intro groupKey member other isNew
      obtain ⟨group, isGroup, rfl⟩ := mem_map.mp member
      rw [show other = key item by simpa using isNew]
      by_contra alike
      have back := equivalence.symm _ (inGroups group isGroup) _ inItem (by simpa using alike)
      rw [fresh group isGroup] at back
      cases back
    · intro group member
      rcases mem_append.mp member with old | new
      · obtain ⟨opener, isOpener, opened⟩ := grouped.opened group old
        exact ⟨opener, mem_append_left _ isOpener, opened⟩
      · rw [mem_singleton.mp new]
        exact ⟨item, by simp, rfl⟩
    · intro group member
      rw [filter_append]
      rcases mem_append.mp member with old | new
      · rw [grouped.members group old]
        simp [fresh group old]
      · rw [mem_singleton.mp new]
        have none : (items.filter fun other => same (key other) (key item)) = [] := by
          rw [filter_eq_nil_iff]
          intro other isOther alike
          obtain ⟨known, isKnown, holds⟩ := grouped.covered other isOther
          have chained := equivalence.trans _ inItem _ (inItems other isOther) _
            (inGroups known isKnown) (equivalence.symm _ (inItems other isOther) _ inItem alike)
            holds
          rw [fresh known isKnown] at chained
          cases chained
        simp [none, equivalence.refl _ inItem]
    · intro other member
      rcases mem_append.mp member with inItems | isItem
      · obtain ⟨known, isKnown, holds⟩ := grouped.covered other inItems
        exact ⟨known, mem_append_left _ isKnown, holds⟩
      · rw [mem_singleton.mp isItem]
        exact ⟨_, mem_append_right _ mem_cons_self, equivalence.refl _ inItem⟩

theorem grouped_groupItems (within : ∀ item ∈ items, key item ∈ domain) :
    Grouped same key items (groupItems same key items) := by
  induction items using List.reverseRecOn with
  | nil => exact ⟨by simp [groupItems], by simp [groupItems], by simp [groupItems], by simp⟩
  | append_singleton items item ih =>
    rw [groupItems, foldl_append]
    exact (ih fun other member => within other (mem_append_left _ member)).insert equivalence within

section

variable (grouped : Grouped same key items groups) (within : ∀ item ∈ items, key item ∈ domain)

include grouped within

theorem Grouped.mem_iff (members : Multiset α) :
    members ∈ groups.map (fun group => (group.2 : Multiset α)) ↔
      ∃ item ∈ items, members = (items.filter fun other => same (key other) (key item)) := by
  constructor
  · intro member
    obtain ⟨group, isGroup, rfl⟩ := mem_map.mp member
    obtain ⟨opener, isOpener, opened⟩ := grouped.opened group isGroup
    exact ⟨opener, isOpener, by rw [grouped.members group isGroup, opened]⟩
  · rintro ⟨item, isItem, rfl⟩
    obtain ⟨group, isGroup, holds⟩ := grouped.covered item isItem
    obtain ⟨opener, isOpener, opened⟩ := grouped.opened group isGroup
    have inGroup : group.1 ∈ domain := by rw [opened]; exact within opener isOpener
    refine mem_map.mpr ⟨group, isGroup, ?_⟩
    rw [grouped.members group isGroup]
    congr 1
    refine filter_congr fun other member => Bool.eq_iff_iff.mpr ⟨fun alike => ?_, fun alike => ?_⟩
    · exact equivalence.trans _ (within other member) _ inGroup _ (within item isItem) alike
        (equivalence.symm _ (within item isItem) _ inGroup holds)
    · exact equivalence.trans _ (within other member) _ (within item isItem) _ inGroup alike holds

theorem Grouped.nodup : (groups.map fun group => (group.2 : Multiset α)).Nodup := by
  have apart := grouped.apart
  rw [pairwise_map] at apart
  rw [List.Nodup, pairwise_map]
  refine apart.imp_of_mem fun {first second} isFirst isSecond different alike => ?_
  obtain ⟨opener, isOpener, opened⟩ := grouped.opened first isFirst
  have inFirst : opener ∈ (first.2 : Multiset α) := by
    rw [grouped.members first isFirst, Multiset.mem_coe, mem_filter, opened]
    exact ⟨isOpener, equivalence.refl _ (within opener isOpener)⟩
  rw [alike, grouped.members second isSecond, Multiset.mem_coe, mem_filter, <- opened,
    different] at inFirst
  exact absurd inFirst.2 (by decide)

end

theorem groupItems_perm {others : List α} (perm : items.Perm others)
    (within : ∀ item ∈ items, key item ∈ domain) :
    ((groupItems same key items).map fun group => (group.2 : Multiset α)).Perm
      ((groupItems same key others).map fun group => (group.2 : Multiset α)) := by
  have withinOthers : ∀ item ∈ others, key item ∈ domain := fun item member =>
    within item (perm.mem_iff.mpr member)
  have grouped := grouped_groupItems equivalence within
  have groupedOthers := grouped_groupItems equivalence withinOthers
  rw [perm_ext_iff_of_nodup (grouped.nodup equivalence within)
    (groupedOthers.nodup equivalence withinOthers)]
  intro members
  rw [grouped.mem_iff equivalence within, groupedOthers.mem_iff equivalence withinOthers]
  refine exists_congr fun item => and_congr perm.mem_iff ?_
  rw [Multiset.coe_eq_coe.mpr (perm.filter fun other => same (key other) (key item))]

end Groups

end InlaySql.Lib
