import InlaySql.Lib.Occurrences

/-!
# Closing a seed under a step

A round takes what the last round added, makes rows of them, and adds those that equal none
so far, the first of each class. What a run has added is grounded in the seed, apart, and
closed wherever it has been expanded; when a round adds nothing it is the least such set.
-/

namespace InlaySql.Lib

open List

variable {α : Type}

/-- What a seed leads to. -/
inductive Derived (seed : List α) (makes : α -> α -> Prop) : α -> Prop where
  | seed {row : α} (member : row ∈ seed) : Derived seed makes row
  | made {row next : α} (derived : Derived seed makes row) (made : makes row next) :
      Derived seed makes next

/-- Every row is of the seed or made from one before it. -/
def Grounded (seed : List α) (makes : α -> α -> Prop) (rows : List α) : Prop :=
  ∀ (index : Nat) row, rows[index]? = some row ->
    row ∈ seed ∨ ∃ earlier ∈ rows.take index, makes earlier row

/-- The rows of a step that equal none so far, the first of each class. -/
def admitted (cmp : α -> α -> Ordering) (rows next : List α) : List α :=
  firstOfEach cmp (next.filter fun row => !rows.any fun seen => cmp seen row == .eq)

/-- Rows that have been expanded and rows that have not. -/
structure Explored (cmp : α -> α -> Ordering) (domain : Set α) (seed : List α)
    (makes : α -> α -> Prop) (done frontier : List α) : Prop where
  inside : ∀ row ∈ done ++ frontier, row ∈ domain
  apart : (done ++ frontier).Pairwise fun left right => cmp left right ≠ .eq
  seeded : ∀ row ∈ seed, ∃ kept ∈ done ++ frontier, cmp kept row = .eq
  grounded : Grounded seed makes (done ++ frontier)
  closed : ∀ row ∈ done, ∀ next, makes row next -> ∃ kept ∈ done ++ frontier, cmp kept next = .eq

/-- Rows closed under a step up to equality, each class once and none without a reason. -/
structure LeastClosed (cmp : α -> α -> Ordering) (seed : List α) (makes : α -> α -> Prop)
    (rows : List α) : Prop where
  apart : rows.Pairwise fun left right => cmp left right ≠ .eq
  seeded : ∀ row ∈ seed, ∃ kept ∈ rows, cmp kept row = .eq
  grounded : Grounded seed makes rows
  closed : ∀ row ∈ rows, ∀ next, makes row next -> ∃ kept ∈ rows, cmp kept next = .eq

section Rows

variable {seed : List α} {makes : α -> α -> Prop} {rows : List α}

theorem Grounded.derived (grounded : Grounded seed makes rows) {row : α} (member : row ∈ rows) :
    Derived seed makes row := by
  obtain ⟨index, found⟩ := getElem?_of_mem member
  induction index using Nat.strongRecOn generalizing row with
  | ind index ih =>
    rcases grounded index row found with inSeed | ⟨earlier, before, made⟩
    · exact .seed inSeed
    · obtain ⟨position, inside, rfl⟩ := mem_take_iff_getElem.mp before
      refine .made (ih position (by omega) (getElem_mem _) ?_) made
      exact getElem?_eq_getElem (by omega)

theorem Grounded.append (grounded : Grounded seed makes rows) {more : List α}
    (made : ∀ row ∈ more, ∃ earlier ∈ rows, makes earlier row) :
    Grounded seed makes (rows ++ more) := by
  intro index row found
  by_cases inside : index < rows.length
  · rw [getElem?_append_left inside] at found
    rcases grounded index row found with inSeed | ⟨earlier, before, isMade⟩
    · exact .inl inSeed
    · rw [take_append_of_le_length inside.le]
      exact .inr ⟨earlier, before, isMade⟩
  · rw [getElem?_append_right (Nat.le_of_not_lt inside)] at found
    obtain ⟨earlier, member, isMade⟩ := made row (mem_of_getElem? found)
    refine .inr ⟨earlier, ?_, isMade⟩
    rw [List.take_append, take_of_length_le (Nat.le_of_not_lt inside)]
    exact mem_append_left _ member

theorem pairwise_firstOfEach {cmp : α -> α -> Ordering} (items : List α) :
    (firstOfEach cmp items).Pairwise fun left right => cmp left right ≠ .eq := by
  rw [firstOfEach, pairwise_map, pairwise_filter, pairwise_iff_getElem]
  intro low high lowInside highInside before _ fresh
  rw [length_zipIdx] at lowInside highInside
  rw [getElem_zipIdx, getElem_zipIdx] at *
  simp only [Nat.zero_add] at *
  simpa using all_eq_true.mp fresh items[low] (mem_take_iff_getElem.mpr ⟨low, by omega, rfl⟩)

end Rows

section Closing

variable {cmp : α -> α -> Ordering} {domain : Set α} (order : PreorderOn cmp domain)
  {seed : List α} {makes : α -> α -> Prop} {done frontier : List α}
include order

theorem Explored.start (within : ∀ row ∈ seed, row ∈ domain) :
    Explored cmp domain seed makes [] (firstOfEach cmp seed) where
  inside _ member := within _ (mem_of_mem_firstOfEach member)
  apart := pairwise_firstOfEach seed
  seeded _ member := order.exists_mem_firstOfEach within member
  grounded _ _ found := .inl (mem_of_mem_firstOfEach (mem_of_getElem? found))
  closed _ member := absurd member not_mem_nil

theorem Explored.advance (explored : Explored cmp domain seed makes done frontier) {next : List α}
    (within : ∀ row ∈ next, row ∈ domain)
    (made : ∀ row, row ∈ next ↔ ∃ earlier ∈ frontier, makes earlier row) :
    Explored cmp domain seed makes (done ++ frontier) (admitted cmp (done ++ frontier) next) := by
  have fresh {row : α} (member : row ∈ admitted cmp (done ++ frontier) next) :
      row ∈ next ∧ ∀ seen ∈ done ++ frontier, cmp seen row ≠ .eq := by
    obtain ⟨inNext, new⟩ := mem_filter.mp (mem_of_mem_firstOfEach member)
    refine ⟨inNext, fun seen isSeen same => ?_⟩
    have found : (done ++ frontier).any (fun seen => cmp seen row == .eq) = true :=
      any_eq_true.mpr ⟨seen, isSeen, by simp [same]⟩
    simp [found] at new
  constructor
  · intro row member
    rcases mem_append.mp member with old | new
    · exact explored.inside row old
    · exact within row (fresh new).1
  · refine pairwise_append.mpr ⟨explored.apart, pairwise_firstOfEach _, ?_⟩
    exact fun seen isSeen row new => (fresh new).2 seen isSeen
  · intro row member
    obtain ⟨kept, isKept, same⟩ := explored.seeded row member
    exact ⟨kept, mem_append_left _ isKept, same⟩
  · refine explored.grounded.append fun row new => ?_
    obtain ⟨earlier, member, isMade⟩ := (made row).mp (fresh new).1
    exact ⟨earlier, mem_append_right _ member, isMade⟩
  · intro row member other isMade
    rcases mem_append.mp member with old | current
    · obtain ⟨kept, isKept, same⟩ := explored.closed row old other isMade
      exact ⟨kept, mem_append_left _ isKept, same⟩
    · have inNext := (made other).mpr ⟨row, current, isMade⟩
      by_cases seen : ∃ seen ∈ done ++ frontier, cmp seen other = .eq
      · obtain ⟨kept, isKept, same⟩ := seen
        exact ⟨kept, mem_append_left _ isKept, same⟩
      · have new : other ∈ next.filter fun row =>
            !(done ++ frontier).any fun seen => cmp seen row == .eq := by
          refine mem_filter.mpr ⟨inNext, ?_⟩
          rw [Bool.not_eq_true', any_eq_false]
          intro kept isKept same
          exact seen ⟨kept, isKept, by simpa using same⟩
        obtain ⟨kept, isKept, same⟩ := order.exists_mem_firstOfEach
          (fun row member => within row (mem_of_mem_filter member)) new
        exact ⟨kept, mem_append_right _ isKept, same⟩

omit order in
theorem Explored.leastClosed (explored : Explored cmp domain seed makes done []) :
    LeastClosed cmp seed makes done := by
  obtain ⟨-, apart, seeded, grounded, closed⟩ := explored
  rw [append_nil] at apart seeded grounded closed
  exact ⟨apart, seeded, grounded, closed⟩

theorem Explored.length_le (explored : Explored cmp domain seed makes done frontier)
    {classes : List α} (within : ∀ row ∈ classes, row ∈ domain)
    (all : ∀ row, Derived seed makes row -> ∃ known ∈ classes, cmp known row = .eq) :
    (done ++ frontier).length ≤ classes.length := by
  classical
  have classOf (row : α) (member : row ∈ done ++ frontier) :
      ∃ known ∈ classes, cmp known row = .eq :=
    all row (explored.grounded.derived member)
  let represent (row : {row // row ∈ done ++ frontier}) : α := (classOf row.1 row.2).choose
  have isClass (row : {row // row ∈ done ++ frontier}) :
      represent row ∈ classes ∧ cmp (represent row) row.1 = .eq :=
    (classOf row.1 row.2).choose_spec
  have distinct : ((done ++ frontier).attach.map represent).Nodup := by
    rw [List.Nodup, pairwise_map]
    have apart : (done ++ frontier).attach.Pairwise fun left right => cmp left.1 right.1 ≠ .eq := by
      have whole := explored.apart
      rwa [<- attach_map_subtype_val (done ++ frontier), pairwise_map] at whole
    refine apart.imp fun {left right} different same => different ?_
    obtain ⟨isLeft, leftSame⟩ := isClass left
    obtain ⟨isRight, rightSame⟩ := isClass right
    rw [<- same] at rightSame
    have inClass := within _ isLeft
    exact order.eq_trans (explored.inside _ left.2) inClass (explored.inside _ right.2)
      (order.eq_symm inClass (explored.inside _ left.2) leftSame) rightSame
  have within' : (done ++ frontier).attach.map represent ⊆ classes := by
    intro known member
    obtain ⟨row, -, rfl⟩ := mem_map.mp member
    exact (isClass row).1
  simpa using (distinct.subperm within').length_le

/-- Where equal rows make equal rows, the classes of the rows are those of everything the
seed leads to. -/
theorem LeastClosed.derived_iff {rows : List α} (least : LeastClosed cmp seed makes rows)
    (inside : ∀ row, Derived seed makes row -> row ∈ domain)
    (congr : ∀ left ∈ domain, ∀ right ∈ domain, cmp left right = .eq -> ∀ next, makes right next ->
      ∃ other, makes left other ∧ cmp other next = .eq) (row : α) (inRow : row ∈ domain) :
    (∃ kept ∈ rows, cmp kept row = .eq) ↔
      ∃ derived, Derived seed makes derived ∧ cmp derived row = .eq := by
  constructor
  · rintro ⟨kept, isKept, same⟩
    exact ⟨kept, least.grounded.derived isKept, same⟩
  · rintro ⟨derived, isDerived, same⟩
    have represented : ∃ kept ∈ rows, cmp kept derived = .eq := by
      clear same
      induction isDerived with
      | seed member => exact least.seeded _ member
      | @made earlier next derived made ih =>
        obtain ⟨kept, isKept, same⟩ := ih
        have inKept := inside _ (least.grounded.derived isKept)
        obtain ⟨other, otherMade, alike⟩ := congr kept inKept earlier (inside _ derived) same next made
        obtain ⟨known, isKnown, equal⟩ := least.closed kept isKept other otherMade
        refine ⟨known, isKnown, ?_⟩
        exact order.eq_trans (inside _ (least.grounded.derived isKnown))
          (inside _ (.made (least.grounded.derived isKept) otherMade)) (inside _ (.made derived made))
          equal alike
    obtain ⟨kept, isKept, alike⟩ := represented
    exact ⟨kept, isKept, order.eq_trans (inside _ (least.grounded.derived isKept))
      (inside _ isDerived) inRow alike same⟩

end Closing

end InlaySql.Lib
