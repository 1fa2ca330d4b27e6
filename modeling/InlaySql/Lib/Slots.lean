import Mathlib

/-!
# Lists kept in order

A list sorted by a strict order holds one item for each position of the order. Placing
an item puts it between those before it and those after it, in place of any that is
neither. Two sorted lists with the same members are one list, so what is known of the
members of a list is known of the list. What holds of the first items only cuts a list in two.
-/

namespace InlaySql.Lib.Slots

open List

variable {α β : Type}

/-- Put an item in its place: what is neither before it nor after it goes. -/
def place (before : α -> α -> Bool) (item : α) (items : List α) : List α :=
  items.filter (before · item) ++ item :: items.filter (before item ·)

section Sorted

variable {before : α -> α -> Bool} {item other : α} {items others : List α}

theorem mem_place : other ∈ place before item items ↔
    other = item ∨ other ∈ items ∧ (before other item = true ∨ before item other = true) := by
  simp only [place, mem_append, mem_filter, mem_cons]
  tauto

theorem eq_of_mem_iff (asymm : ∀ left right, before left right = true -> before right left = false)
    (sorted : items.Pairwise (before · ·)) (othersSorted : others.Pairwise (before · ·))
    (same : ∀ item, item ∈ items ↔ item ∈ others) : items = others := by
  have nodup : ∀ {list : List α}, list.Pairwise (before · ·) -> list.Nodup := by
    intro list sorted
    refine sorted.imp fun {left right} isBefore equal => ?_
    subst equal
    rw [asymm _ _ isBefore] at isBefore
    cases isBefore
  have perm : items.Perm others :=
    (perm_ext_iff_of_nodup (nodup sorted) (nodup othersSorted)).mpr same
  refine perm.eq_of_pairwise (fun left right _ _ isBefore isAfter => ?_) sorted othersSorted
  rw [asymm _ _ isBefore] at isAfter
  cases isAfter

theorem pairwise_place
    (trans : ∀ left middle right, before left middle = true -> before middle right = true ->
      before left right = true)
    (sorted : items.Pairwise (before · ·)) : (place before item items).Pairwise (before · ·) := by
  rw [place, pairwise_append, pairwise_cons]
  refine ⟨sorted.filter _, ⟨fun other member => (mem_filter.mp member).2, sorted.filter _⟩, ?_⟩
  intro left isLeft right isRight
  have isBefore := (mem_filter.mp isLeft).2
  rcases mem_cons.mp isRight with rfl | isRight
  · exact isBefore
  · exact trans _ _ _ isBefore (mem_filter.mp isRight).2

theorem map_place {view : α -> β} {beforeView : β -> β -> Bool}
    (agree : ∀ other ∈ items, before other item = beforeView (view other) (view item) ∧
      before item other = beforeView (view item) (view other)) :
    (place before item items).map view = place beforeView (view item) (items.map view) := by
  have earlier : items.filter (before · item) = items.filter ((beforeView · (view item)) ∘ view) :=
    filter_congr fun other member => (agree other member).1
  have later : items.filter (before item ·) = items.filter (beforeView (view item) ∘ view) :=
    filter_congr fun other member => (agree other member).2
  rw [place, place, map_append, map_cons, filter_map, filter_map, earlier, later]

end Sorted

theorem pairwise_mergeSort {key : α -> Nat} {items : List α} (nodup : (items.map key).Nodup) :
    (items.mergeSort fun left right => decide (key left ≤ key right)).Pairwise
      (key · < key ·) := by
  have perm := mergeSort_perm items fun left right => decide (key left ≤ key right)
  have apart : (items.mergeSort fun left right => decide (key left ≤ key right)).Pairwise
      (key · ≠ key ·) := pairwise_map.mp ((perm.map key).nodup_iff.mpr nodup)
  have ordered : (items.mergeSort fun left right => decide (key left ≤ key right)).Pairwise
      fun left right => decide (key left ≤ key right) = true := by
    refine List.pairwise_mergeSort (fun left middle right => ?_) (fun left right => ?_) items
    · simp only [decide_eq_true_eq]
      exact Nat.le_trans
    · simp only [Bool.or_eq_true, decide_eq_true_eq]
      exact Nat.le_total (key left) (key right)
  refine (List.Pairwise.and ordered apart).imp fun {left right} both => ?_
  exact Nat.lt_of_le_of_ne (of_decide_eq_true both.1) both.2

section Cut

variable {pass : α -> Bool} {items : List α}

section

variable (falls : items.Pairwise fun left right => pass right = true -> pass left = true)

include falls

theorem takeWhile_eq_filter : items.takeWhile pass = items.filter pass := by
  induction items with
  | nil => rfl
  | cons item items ih =>
    obtain ⟨ofItem, falls⟩ := pairwise_cons.mp falls
    cases passes : pass item with
    | true => rw [takeWhile_cons_of_pos passes, filter_cons_of_pos passes, ih falls]
    | false =>
      rw [takeWhile_cons_of_neg (by simp [passes]), filter_cons_of_neg (by simp [passes]),
        eq_comm, filter_eq_nil_iff]
      intro other member isPassing
      rw [ofItem other member isPassing] at passes
      cases passes

theorem dropWhile_eq_filter : items.dropWhile pass = items.filter (!pass ·) := by
  induction items with
  | nil => rfl
  | cons item items ih =>
    obtain ⟨ofItem, falls⟩ := pairwise_cons.mp falls
    cases passes : pass item with
    | true =>
      rw [dropWhile_cons_of_pos passes, filter_cons_of_neg (by simp [passes]), ih falls]
    | false =>
      rw [dropWhile_cons_of_neg (by simp [passes]), eq_comm, filter_eq_self]
      intro other member
      cases isPassing : pass other with
      | false => rfl
      | true =>
        rcases mem_cons.mp member with rfl | later
        · rw [passes] at isPassing
          cases isPassing
        · rw [ofItem other later isPassing] at passes
          cases passes

end

end Cut

end InlaySql.Lib.Slots
