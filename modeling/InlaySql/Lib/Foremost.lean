import Mathlib

/-!
# The least items of a stream

Of items that come one by one only the `k` least are held. As long as there is room an item is
taken; after that it replaces the greatest item held, or it is passed over because every item
held is at most it. Which items are held does not depend on the order they come in.
-/

namespace InlaySql.Lib

open List

variable {α : Type} [LinearOrder α] {k : Nat} {held items : List α} {item worst : α}

/-- The items held are the `k` least of all items, or all if there are no more than `k`. -/
structure Foremost (k : Nat) (held items : List α) : Prop where
  rest : ∃ rest, items.Perm (held ++ rest) ∧ (∀ one ∈ held, ∀ other ∈ rest, one ≤ other) ∧
    (rest = [] ∨ held.length = k)
  few : held.length ≤ k

namespace Foremost

theorem nil : Foremost k ([] : List α) [] :=
  ⟨⟨[], .refl _, by simp, .inl rfl⟩, Nat.zero_le k⟩

section

variable (foremost : Foremost k held items)

include foremost

theorem perm {heldNext itemsNext : List α} (same : held.Perm heldNext)
    (sameItems : items.Perm itemsNext) :
    Foremost k heldNext itemsNext := by
  obtain ⟨⟨rest, split, least, full⟩, few⟩ := foremost
  refine ⟨⟨rest, sameItems.symm.trans (split.trans (same.append_right rest)), ?_, ?_⟩, ?_⟩
  · exact fun one isHeld => least one (same.mem_iff.mpr isHeld)
  · exact full.imp_right same.length_eq.symm.trans
  · exact same.length_eq ▸ few

theorem take (room : held.length < k) : Foremost k (item :: held) (item :: items) := by
  obtain ⟨⟨rest, split, least, full⟩, few⟩ := foremost
  obtain rfl := full.resolve_right (Nat.ne_of_lt room)
  exact ⟨⟨[], split.cons item, by simp, .inl rfl⟩, room⟩

theorem pass (full : held.length = k) (beyond : ∀ one ∈ held, one ≤ item) :
    Foremost k held (item :: items) := by
  obtain ⟨⟨rest, split, least, -⟩, few⟩ := foremost
  refine ⟨⟨item :: rest, (split.cons item).trans perm_middle.symm, ?_, .inr full⟩, few⟩
  intro one isHeld other isRest
  rcases mem_cons.mp isRest with rfl | before
  · exact beyond one isHeld
  · exact least one isHeld other before

end

theorem replace (foremost : Foremost k (worst :: held) items)
    (full : (worst :: held).length = k) (last : ∀ one ∈ held, one ≤ worst)
    (better : item ≤ worst) : Foremost k (item :: held) (item :: items) := by
  obtain ⟨⟨rest, split, least, -⟩, few⟩ := foremost
  have moved : (worst :: held ++ rest).Perm (held ++ worst :: rest) := perm_middle.symm
  refine ⟨⟨worst :: rest, (split.trans moved).cons item, ?_, .inr full⟩, few⟩
  intro one isHeld other isRest
  have below : one ≤ worst := by
    rcases mem_cons.mp isHeld with rfl | before
    · exact better
    · exact last one before
  rcases mem_cons.mp isRest with rfl | before
  · exact below
  · exact below.trans (least worst mem_cons_self other before)

theorem sorted_mergeSort (items : List α) :
    (items.mergeSort fun left right => decide (left ≤ right)).Pairwise (· ≤ ·) := by
  refine (List.pairwise_mergeSort (fun left middle right => ?_) (fun left right => ?_) items).imp
    of_decide_eq_true
  · simp only [decide_eq_true_eq]
    exact le_trans
  · simp only [Bool.or_eq_true, decide_eq_true_eq]
    exact le_total left right

theorem mergeSort_eq_take (foremost : Foremost k held items) :
    held.mergeSort (fun left right => decide (left ≤ right)) =
      (items.mergeSort fun left right => decide (left ≤ right)).take k := by
  obtain ⟨⟨rest, split, least, full⟩, few⟩ := foremost
  have perm (some : List α) : (some.mergeSort fun left right => decide (left ≤ right)).Perm some :=
    mergeSort_perm some _
  have whole : held.mergeSort (fun left right => decide (left ≤ right)) ++
      rest.mergeSort (fun left right => decide (left ≤ right)) =
      items.mergeSort fun left right => decide (left ≤ right) := by
    refine List.Perm.eq_of_pairwise (fun left right _ _ => le_antisymm) ?_
      (sorted_mergeSort items) ?_
    · rw [pairwise_append]
      refine ⟨sorted_mergeSort held, sorted_mergeSort rest, fun one isHeld other isRest => ?_⟩
      exact least one ((perm held).mem_iff.mp isHeld) other ((perm rest).mem_iff.mp isRest)
    · exact ((perm held).append (perm rest)).trans (split.symm.trans (perm items).symm)
  have length : (held.mergeSort fun left right => decide (left ≤ right)).length = held.length :=
    length_mergeSort held
  rw [<- whole]
  rcases full with rfl | full
  · rw [mergeSort_nil, append_nil, take_of_length_le (length.le.trans few)]
  · rw [<- full, <- length, take_left]

end Foremost

end InlaySql.Lib
