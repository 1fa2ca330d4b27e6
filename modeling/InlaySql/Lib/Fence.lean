import Mathlib

/-!
# Fenced entries and separator spines

A search tree keeps every subtree between two fences: a lower bound that may be
reached and an upper bound that may not, either of them absent. `Spine` is the
chain of children and separators of one inner node, over any relation that says
what a child means. It can be cut at a separator, and a child reached by routing a
key can be replaced by any spine between the same fences.

The relation also names the set of identifiers a child rests on. Siblings rest on
disjoint sets, so a change confined to one child leaves the others' meaning alone.
-/

namespace InlaySql.Lib

open List

variable {K V Id : Type} [LinearOrder K]

/-- `key` lies between the fences. -/
def Within (low high : Option K) (key : K) : Prop :=
  (∀ bound ∈ low, bound ≤ key) ∧ ∀ bound ∈ high, key < bound

/-- A separator strictly between the fences. -/
def Parts (low high : Option K) (separator : K) : Prop :=
  (∀ bound ∈ low, bound < separator) ∧ ∀ bound ∈ high, separator < bound

/-- Entries in strictly increasing key order, all between the fences. -/
structure Fenced (low high : Option K) (entries : List (K × V)) : Prop where
  sorted : entries.Pairwise fun first second => first.1 < second.1
  within : ∀ entry ∈ entries, Within low high entry.1

variable {low high : Option K} {left right : List (K × V)}

theorem Fenced.nil : Fenced low high ([] : List (K × V)) :=
  ⟨.nil, by simp⟩

theorem Fenced.unique {entries : List (K × V)} (fenced : Fenced low high entries) {key : K}
    {first second : V} (one : (key, first) ∈ entries) (other : (key, second) ∈ entries) :
    first = second := by
  have sorted := fenced.sorted
  clear fenced
  induction entries with
  | nil => simp at one
  | cons head entries ih =>
    obtain ⟨below, rest⟩ := pairwise_cons.mp sorted
    rcases mem_cons.mp one with rfl | oneLater <;>
      rcases mem_cons.mp other with isHead | otherLater
    · exact (Prod.mk.inj isHead).2.symm
    · exact absurd (below _ otherLater) (lt_irrefl _)
    · exact absurd (below _ oneLater) (by rw [<- isHead]; exact lt_irrefl _)
    · exact ih oneLater otherLater rest

theorem Fenced.append {separator : K} (parts : Parts low high separator)
    (leftFenced : Fenced low (some separator) left)
    (rightFenced : Fenced (some separator) high right) : Fenced low high (left ++ right) where
  sorted := by
    refine pairwise_append.mpr ⟨leftFenced.sorted, rightFenced.sorted, ?_⟩
    intro first inLeft second inRight
    have below := (leftFenced.within first inLeft).2 separator rfl
    have above := (rightFenced.within second inRight).1 separator rfl
    exact below.trans_le above
  within entry member := by
    rcases mem_append.mp member with inLeft | inRight
    · have inside := leftFenced.within entry inLeft
      exact ⟨inside.1, fun bound isHigh =>
        (inside.2 separator rfl).trans (parts.2 bound isHigh)⟩
    · have inside := rightFenced.within entry inRight
      exact ⟨fun bound isLow => (parts.1 bound isLow).le.trans (inside.1 separator rfl), inside.2⟩

theorem eq_of_sorted_of_mem {first second : List (K × V)}
    (firstSorted : first.Pairwise fun left right => left.1 < right.1)
    (secondSorted : second.Pairwise fun left right => left.1 < right.1)
    (same : ∀ entry, entry ∈ first ↔ entry ∈ second) : first = second := by
  have distinct : ∀ entries : List (K × V),
      (entries.Pairwise fun left right => left.1 < right.1) -> entries.Nodup := by
    intro entries sorted
    refine sorted.imp fun less equal => ?_
    rw [equal] at less
    exact lt_irrefl _ less
  have perm := (perm_ext_iff_of_nodup (distinct _ firstSorted) (distinct _ secondSorted)).mpr same
  refine perm.eq_of_pairwise (fun left right _ _ less more => ?_) firstSorted secondSorted
  exact absurd (less.trans more) (lt_irrefl _)

/-- `entries` are those of `all` between the fences. -/
def InSpan (all : List (K × V)) (low high : Option K) (entries : List (K × V)) : Prop :=
  ∀ entry, entry ∈ entries ↔ entry ∈ all ∧ Within low high entry.1

theorem InSpan.whole (entries : List (K × V)) : InSpan entries none none entries := by
  simp [InSpan, Within]

theorem InSpan.split {all : List (K × V)} {separator : K}
    (span : InSpan all low high (left ++ right)) (parts : Parts low high separator)
    (leftFenced : Fenced low (some separator) left)
    (rightFenced : Fenced (some separator) high right) :
    InSpan all low (some separator) left ∧ InSpan all (some separator) high right := by
  constructor
  · intro entry
    constructor
    · intro member
      exact ⟨((span entry).mp (mem_append_left _ member)).1, leftFenced.within entry member⟩
    · rintro ⟨member, inside⟩
      have below := inside.2 separator rfl
      have found := (span entry).mpr ⟨member, inside.1, fun bound isHigh =>
        below.trans (parts.2 bound isHigh)⟩
      rcases mem_append.mp found with inLeft | inRight
      · exact inLeft
      · exact absurd ((rightFenced.within entry inRight).1 separator rfl) (not_le.mpr below)
  · intro entry
    constructor
    · intro member
      exact ⟨((span entry).mp (mem_append_right _ member)).1, rightFenced.within entry member⟩
    · rintro ⟨member, inside⟩
      have above := inside.1 separator rfl
      have found := (span entry).mpr ⟨member, fun bound isLow =>
        (parts.1 bound isLow).le.trans above, inside.2⟩
      rcases mem_append.mp found with inLeft | inRight
      · exact absurd ((leftFenced.within entry inLeft).2 separator rfl) (not_lt.mpr above)
      · exact inRight

/-- `after` is `before` with `key` set to `value`, or removed when there is none. -/
def Overlay (before : List (K × V)) (key : K) (value : Option V) (after : List (K × V)) : Prop :=
  ∀ other stored, (other, stored) ∈ after ↔
    (other = key ∧ value = some stored) ∨ (other ≠ key ∧ (other, stored) ∈ before)

omit [LinearOrder K] in
theorem Overlay.frame {front middle back changed : List (K × V)} {key : K} {value : Option V}
    (overlay : Overlay middle key value changed) (inFront : ∀ entry ∈ front, entry.1 ≠ key)
    (inBack : ∀ entry ∈ back, entry.1 ≠ key) :
    Overlay (front ++ middle ++ back) key value (front ++ changed ++ back) := by
  intro other stored
  simp only [mem_append, overlay other stored]
  constructor
  · rintro ((found | found | found) | found)
    · exact .inr ⟨inFront _ found, .inl (.inl found)⟩
    · exact .inl found
    · exact .inr ⟨found.1, .inl (.inr found.2)⟩
    · exact .inr ⟨inBack _ found, .inr found⟩
  · rintro (found | ⟨distinct, (found | found) | found⟩)
    · exact .inl (.inr (.inl found))
    · exact .inl (.inl found)
    · exact .inl (.inr (.inr ⟨distinct, found⟩))
    · exact .inr found

section Entries

variable {low high : Option K} {key : K} {front middle back : List (K × V)}

theorem Fenced.sublist {entries part : List (K × V)} (fenced : Fenced low high entries)
    (subset : part.Sublist entries) : Fenced low high part :=
  ⟨fenced.sorted.sublist subset, fun entry member => fenced.within entry (subset.subset member)⟩

theorem Fenced.cut {value : V} (fenced : Fenced low high (front ++ (key, value) :: back))
    (filled : front ≠ []) :
    Parts low high key ∧ Fenced low (some key) front ∧
      Fenced (some key) high ((key, value) :: back) := by
  obtain ⟨frontSorted, backSorted, across⟩ := pairwise_append.mp fenced.sorted
  have before : ∀ entry ∈ front, entry.1 < key := fun entry member =>
    across entry member (key, value) (by simp)
  have inside := fenced.within (key, value) (by simp)
  refine ⟨⟨fun bound isLow => ?_, inside.2⟩, ⟨frontSorted, ?_⟩, backSorted, ?_⟩
  · obtain ⟨first, member⟩ := exists_mem_of_ne_nil front filled
    have lower := (fenced.within first (mem_append_left _ member)).1 bound isLow
    exact lower.trans_lt (before first member)
  · intro entry member
    refine ⟨(fenced.within entry (mem_append_left _ member)).1, ?_⟩
    rintro bound ⟨⟩
    exact before entry member
  · intro entry member
    refine ⟨?_, (fenced.within entry (mem_append_right _ member)).2⟩
    rintro bound ⟨⟩
    rcases mem_cons.mp member with rfl | later
    · exact le_rfl
    · exact ((pairwise_cons.mp backSorted).1 entry later).le

theorem Fenced.place (fenced : Fenced low high (front ++ middle ++ back)) (value : V)
    (inside : Within low high key) (below : ∀ entry ∈ front, entry.1 < key)
    (above : ∀ entry ∈ back, key < entry.1) :
    Fenced low high (front ++ [(key, value)] ++ back) := by
  have frontFenced := fenced.sublist (show front.Sublist _ by simp)
  have backFenced := fenced.sublist (show back.Sublist _ by simp)
  refine ⟨?_, ?_⟩
  · rw [append_assoc, singleton_append]
    refine pairwise_append.mpr ⟨frontFenced.sorted, ?_, ?_⟩
    · exact pairwise_cons.mpr ⟨above, backFenced.sorted⟩
    · intro first inFront second inRest
      rcases mem_cons.mp inRest with rfl | inBack
      · exact below first inFront
      · exact (below first inFront).trans (above second inBack)
  · intro entry member
    simp only [mem_append, mem_singleton] at member
    rcases member with (inFront | rfl) | inBack
    · exact frontFenced.within entry inFront
    · exact inside
    · exact backFenced.within entry inBack

theorem overlay_place (value : V) (same : ∀ entry ∈ middle, entry.1 = key)
    (below : ∀ entry ∈ front, entry.1 < key) (above : ∀ entry ∈ back, key < entry.1) :
    Overlay (front ++ middle ++ back) key (some value) (front ++ [(key, value)] ++ back) := by
  refine Overlay.frame ?_ (fun entry member => (below entry member).ne)
    (fun entry member => (above entry member).ne')
  intro other stored
  simp only [mem_singleton, Prod.mk.injEq, Option.some.injEq]
  constructor
  · rintro ⟨rfl, rfl⟩
    exact .inl ⟨rfl, rfl⟩
  · rintro (⟨rfl, rfl⟩ | ⟨distinct, found⟩)
    · exact ⟨rfl, rfl⟩
    · exact absurd (same _ found) distinct

omit [LinearOrder K] in
theorem overlay_singleton (key : K) (value : V) : Overlay [] key (some value) [(key, value)] := by
  intro other stored
  simp [eq_comm]

theorem overlay_drop (same : ∀ entry ∈ middle, entry.1 = key)
    (below : ∀ entry ∈ front, entry.1 < key) (above : ∀ entry ∈ back, key < entry.1) :
    Overlay (front ++ middle ++ back) key none (front ++ back) := by
  have framed : Overlay (front ++ middle ++ back) key none (front ++ [] ++ back) := by
    refine Overlay.frame ?_ (fun entry member => (below entry member).ne)
      (fun entry member => (above entry member).ne')
    intro other stored
    simp only [not_mem_nil, reduceCtorEq, and_false, false_or, false_iff, not_and]
    intro distinct found
    exact distinct (same _ found)
  simpa using framed

end Entries

section Spine

variable [DecidableEq Id]

/-- What a child means: its fences, its entries and the identifiers it rests on. -/
abbrev Meaning (K V Id : Type) :=
  Id -> Option K -> Option K -> List (K × V) -> Finset Id -> Prop

/-- The children of an inner node, the first one and then each behind its
separator. -/
inductive Spine (meaning : Meaning K V Id) :
    Option K -> Option K -> Id -> List (K × Id) -> List (K × V) -> Finset Id -> Prop where
  | last {low high child entries rests} (leaf : meaning child low high entries rests) :
      Spine meaning low high child [] entries rests
  | cons {low high child separator next cells left right leftRests rightRests}
      (parts : Parts low high separator)
      (first : meaning child low (some separator) left leftRests)
      (others : Spine meaning (some separator) high next cells right rightRests)
      (apart : Disjoint leftRests rightRests) :
      Spine meaning low high child ((separator, next) :: cells) (left ++ right)
        (leftRests ∪ rightRests)

variable {meaning changed : Meaning K V Id} {low high : Option K} {child : Id}
  {cells : List (K × Id)} {entries : List (K × V)} {rests : Finset Id}

namespace Spine

section

variable (spine : Spine meaning low high child cells entries rests)

include spine

theorem frame
    (keep : ∀ child low high entries part, part ⊆ rests -> meaning child low high entries part ->
      changed child low high entries part) :
    Spine changed low high child cells entries rests := by
  induction spine with
  | last leaf => exact .last (keep _ _ _ _ _ subset_rfl leaf)
  | cons parts first _ apart ih =>
    refine .cons parts (keep _ _ _ _ _ Finset.subset_union_left first) ?_ apart
    exact ih fun child low high entries part within =>
      keep child low high entries part (within.trans Finset.subset_union_right)

theorem fenced
    (each : ∀ child low high entries rests, meaning child low high entries rests -> Fenced low high
      entries) : Fenced low high entries := by
  induction spine with
  | last leaf => exact each _ _ _ _ _ leaf
  | cons parts first _ _ ih => exact (each _ _ _ _ _ first).append parts ih

theorem separators :
    (cells.map Prod.fst).Pairwise (· < ·) ∧ ∀ cell ∈ cells, Parts low high cell.1 := by
  induction spine with
  | last => simp
  | cons parts first others apart ih =>
    refine ⟨?_, ?_⟩
    · rw [map_cons, pairwise_cons]
      refine ⟨?_, ih.1⟩
      intro key member
      obtain ⟨cell, inCells, rfl⟩ := mem_map.mp member
      exact (ih.2 cell inCells).1 _ rfl
    · intro cell member
      rcases mem_cons.mp member with rfl | inCells
      · exact parts
      · refine ⟨fun bound isLow => ?_, (ih.2 cell inCells).2⟩
        exact (parts.1 bound isLow).trans ((ih.2 cell inCells).1 _ rfl)

end

variable {front back : List (K × Id)}

theorem cut {separator : K} {next : Id}
    (spine : Spine meaning low high child (front ++ (separator, next) :: back) entries rests) :
    ∃ left right leftRests rightRests,
      Spine meaning low (some separator) child front left leftRests ∧
        Spine meaning (some separator) high next back right rightRests ∧
        entries = left ++ right ∧ rests = leftRests ∪ rightRests ∧
        Disjoint leftRests rightRests ∧ Parts low high separator := by
  induction front generalizing low child entries rests with
  | nil =>
    cases spine with
    | cons parts first others apart =>
      exact ⟨_, _, _, _, .last first, others, rfl, rfl, apart, parts⟩
  | cons head front ih =>
    have ordered := spine.separators
    cases spine with
    | cons parts first others apart =>
      obtain ⟨left, right, leftRests, rightRests, leftSpine, rightSpine, rfl, rfl,
        innerApart, innerParts⟩ := ih others
      rw [Finset.disjoint_union_right] at apart
      have before := innerParts.1 _ rfl
      refine ⟨_, right, _, rightRests, .cons ⟨parts.1, ?_⟩ first leftSpine apart.1,
        rightSpine, by rw [append_assoc], by rw [Finset.union_assoc], ?_, ?_⟩
      · rintro bound ⟨⟩
        exact before
      · exact Finset.disjoint_union_left.mpr ⟨apart.2, innerApart⟩
      · exact ⟨fun bound isLow => (parts.1 bound isLow).trans before, innerParts.2⟩

theorem join {separator : K} {next : Id}
    {leftRests rightRests : Finset Id} (parts : Parts low high separator)
    (leftSpine : Spine meaning low (some separator) child front left leftRests)
    (rightSpine : Spine meaning (some separator) high next back right rightRests)
    (apart : Disjoint leftRests rightRests) :
    Spine meaning low high child (front ++ (separator, next) :: back) (left ++ right)
      (leftRests ∪ rightRests) := by
  induction front generalizing low child left leftRests with
  | nil =>
    cases leftSpine with
    | last leaf => exact .cons parts leaf rightSpine apart
  | cons head front ih =>
    cases leftSpine with
    | cons innerParts first others innerApart =>
      rw [Finset.disjoint_union_left] at apart
      have before := innerParts.2 _ rfl
      rw [append_assoc, Finset.union_assoc]
      refine .cons ⟨innerParts.1, fun bound isHigh => before.trans (parts.2 bound isHigh)⟩
        first ?_ (Finset.disjoint_union_right.mpr ⟨innerApart, apart.1⟩)
      exact ih ⟨fun bound isLow => by obtain rfl : _ = bound := by simpa using isLow
                                      exact before, parts.2⟩ others apart.2

end Spine

/-- Child slot `index` of a spine: 0 is the first child. -/
def childSlot (child : Id) (cells : List (K × Id)) : Nat -> Option Id
  | 0 => some child
  | index + 1 => cells[index]?.map Prod.snd

/-- Put the spine `(newChild, inserted)` in the place of child slot `index`. -/
def spliceChild (child : Id) (cells : List (K × Id)) (newChild : Id)
    (inserted : List (K × Id)) : Nat -> Id × List (K × Id)
  | 0 => (newChild, inserted ++ cells)
  | index + 1 =>
    (child, cells.modify index (fun cell => (cell.1, newChild)) |>.take (index + 1)
      |>.append (inserted ++ cells.drop (index + 1)))

omit [LinearOrder K] [DecidableEq Id] in
theorem spliceChild_keys (child : Id) (cells : List (K × Id)) (newChild : Id)
    (inserted : List (K × Id)) (index : Nat) :
    (spliceChild child cells newChild inserted index).2.map Prod.fst =
      (cells.map Prod.fst).take index ++ inserted.map Prod.fst ++
        (cells.map Prod.fst).drop index := by
  cases index with
  | zero => simp [spliceChild]
  | succ index =>
    have same : (cells.modify index fun cell => (cell.1, newChild)).map Prod.fst =
        cells.map Prod.fst := by
      apply ext_getElem?
      intro position
      rw [getElem?_map, List.getElem?_modify, getElem?_map]
      cases cells[position]? with
      | none => rfl
      | some cell => by_cases isIndex : index = position <;> simp [isIndex]
    simp only [spliceChild, append_eq, map_append, map_take, map_drop, same, append_assoc]

/-- `index` counts the separators at most `key`. -/
def Routes (cells : List (K × Id)) (key : K) (index : Nat) : Prop :=
  index ≤ cells.length ∧ (∀ cell ∈ cells.take index, cell.1 ≤ key) ∧
    ∀ cell ∈ cells.drop index, key < cell.1

/-- Routing a key finds the one child whose fences hold it, and that child can be
replaced by any spine between the same fences. -/
theorem Spine.route (spine : Spine meaning low high child cells entries rests) {key : K}
    {index : Nat} (inside : Within low high key) (routes : Routes cells key index)
    (each : ∀ child low high entries rests, meaning child low high entries rests ->
      Fenced low high entries) :
    ∃ target childLow childHigh front middle back targetRests otherRests,
      childSlot child cells index = some target ∧
        meaning target childLow childHigh middle targetRests ∧
        Within childLow childHigh key ∧ entries = front ++ middle ++ back ∧
        (∀ entry ∈ front, entry.1 ≠ key) ∧ (∀ entry ∈ back, entry.1 ≠ key) ∧
        rests = otherRests ∪ targetRests ∧ Disjoint otherRests targetRests ∧
        ∀ (changed : Meaning K V Id) newChild inserted newMiddle newRests,
          (∀ child low high entries part, part ⊆ otherRests ->
            meaning child low high entries part -> changed child low high entries part) ->
          Spine changed childLow childHigh newChild inserted newMiddle newRests ->
          Disjoint otherRests newRests ->
          Spine changed low high (spliceChild child cells newChild inserted index).1
            (spliceChild child cells newChild inserted index).2
            (front ++ newMiddle ++ back) (otherRests ∪ newRests) := by
  induction spine generalizing index with
  | last leaf =>
    obtain rfl : index = 0 := by simpa using routes.1
    refine ⟨_, _, _, [], _, [], _, ∅, rfl, leaf, inside, by simp, by simp, by simp, by simp,
      by simp, ?_⟩
    intro changed newChild inserted newMiddle newRests _ newSpine _
    simpa [spliceChild] using newSpine
  | @cons low high child separator next cells left right leftRests rightRests parts first others
      apart ih =>
      cases index with
      | zero =>
        -- The key is below the first separator: the first child is the target.
        have below : key < separator := routes.2.2 (separator, next) (by simp)
        refine ⟨child, low, some separator, [], left, right, leftRests, rightRests, rfl, first,
          ⟨inside.1, ?_⟩, by simp, by simp, ?_, Finset.union_comm _ _, apart.symm, ?_⟩
        · rintro bound ⟨⟩
          exact below
        · intro entry member
          have above := ((others.fenced each).within entry member).1 separator rfl
          exact (below.trans_le above).ne'
        · intro changed newChild inserted newMiddle newRests keep newSpine newApart
          have kept := others.frame keep
          rw [nil_append, Finset.union_comm]
          exact newSpine.join parts kept newApart.symm
      | succ index =>
        have above : separator ≤ key := routes.2.1 (separator, next) (by simp)
        have tailInside : Within (some separator) high key :=
          ⟨fun bound isLow => by obtain rfl : separator = bound := by simpa using isLow
                                 exact above, inside.2⟩
        have tailRoutes : Routes cells key index := by
          refine ⟨by simpa using routes.1, fun cell member => ?_, fun cell member => ?_⟩
          · exact routes.2.1 cell (by simp [member])
          · exact routes.2.2 cell (by simpa using member)
        obtain ⟨target, childLow, childHigh, front, middle, back, targetRests, otherRests,
          slot, meant, targetInside, rfl, inFront, inBack, rfl, innerApart, replace⟩ :=
          ih tailInside tailRoutes
        rw [Finset.disjoint_union_right] at apart
        refine ⟨target, childLow, childHigh, left ++ front, middle, back, targetRests,
          leftRests ∪ otherRests, ?_, meant, targetInside, by simp, ?_, inBack,
          by rw [Finset.union_assoc], Finset.disjoint_union_left.mpr ⟨apart.2, innerApart⟩, ?_⟩
        · cases index <;> simpa [childSlot] using slot
        · intro entry member
          rcases mem_append.mp member with inLeft | found
          · have below := ((each _ _ _ _ _ first).within entry inLeft).2 separator rfl
            exact (below.trans_le above).ne
          · exact inFront entry found
        · intro changed newChild inserted newMiddle newRests keep newSpine newApart
          rw [Finset.disjoint_union_left] at newApart
          have tail := replace changed newChild inserted newMiddle newRests
            (fun child low high entries part within =>
              keep child low high entries part (within.trans Finset.subset_union_right))
            newSpine newApart.2
          have head := keep _ _ _ _ _ Finset.subset_union_left first
          have joined := Spine.cons parts head tail
            (Finset.disjoint_union_right.mpr ⟨apart.1, newApart.1⟩)
          rw [append_assoc, append_assoc, Finset.union_assoc]
          rw [<- append_assoc front]
          cases index <;> simpa [spliceChild] using joined

end Spine

end InlaySql.Lib
