import Mathlib

/-!
# What a test passes at the front of a list

A search forwards takes the items a test passes up to the first that it does not. It may be cut
in two at a stronger test, and it may look at a window of the list only.
-/

namespace InlaySql.Lib.Fronts

open List

variable {α : Type} {passes : α -> Bool} {items : List α} {item : α} {position window : Nat}

theorem drop_length_takeWhile (passes : α -> Bool) (items : List α) :
    items.drop (items.takeWhile passes).length = items.dropWhile passes := by
  calc items.drop (items.takeWhile passes).length
      = (items.takeWhile passes ++ items.dropWhile passes).drop
          (items.takeWhile passes).length := by rw [takeWhile_append_dropWhile]
    _ = items.dropWhile passes := drop_left

theorem takeWhile_eq_append {strong weak : α -> Bool}
    (implies : ∀ item, strong item = true -> weak item = true) (items : List α) :
    items.takeWhile weak =
      items.takeWhile strong ++ (items.dropWhile strong).takeWhile weak := by
  induction items with
  | nil => rfl
  | cons item items ih =>
    by_cases isPassed : strong item = true
    · rw [takeWhile_cons_of_pos isPassed, dropWhile_cons_of_pos isPassed,
        takeWhile_cons_of_pos (implies item isPassed), ih, cons_append]
    · rw [takeWhile_cons_of_neg isPassed, dropWhile_cons_of_neg isPassed, nil_append]

theorem takeWhile_take (reaches : (items.takeWhile passes).length ≤ window) :
    (items.take window).takeWhile passes = items.takeWhile passes := by
  induction items generalizing window with
  | nil => simp
  | cons item items ih =>
    by_cases isPassed : passes item = true
    · rw [takeWhile_cons_of_pos isPassed, length_cons] at reaches
      obtain ⟨rest, rfl⟩ := Nat.exists_eq_succ_of_ne_zero (show window ≠ 0 by omega)
      rw [take_succ_cons, takeWhile_cons_of_pos isPassed,
        takeWhile_cons_of_pos isPassed, ih (by omega)]
    · cases window with
      | zero => rw [takeWhile_cons_of_neg isPassed, take_zero, takeWhile_nil]
      | succ rest =>
        rw [take_succ_cons, takeWhile_cons_of_neg isPassed, takeWhile_cons_of_neg isPassed]

theorem length_takeWhile_le (isItem : items[position]? = some item)
    (fails : passes item = false) : (items.takeWhile passes).length ≤ position := by
  by_contra beyond
  have inside : position < (items.takeWhile passes).length := by omega
  have whole : items.takeWhile passes ++ items.dropWhile passes = items :=
    takeWhile_append_dropWhile
  have isTaken : (items.takeWhile passes)[position]? = some item := by
    calc (items.takeWhile passes)[position]?
        = (items.takeWhile passes ++ items.dropWhile passes)[position]? :=
          (getElem?_append_left inside).symm
      _ = some item := by rw [whole, isItem]
  have isPassed := mem_takeWhile_imp (mem_of_getElem? isTaken)
  rw [fails] at isPassed
  cases isPassed

end InlaySql.Lib.Fronts
