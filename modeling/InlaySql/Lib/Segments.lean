import Mathlib

/-!
# Lists cut by a separator

A list of segments, each followed by a separator none of them contains, and a rest
without separators, can be read back from their concatenation.
-/

namespace InlaySql.Lib

open List

variable {α : Type}

variable {sep : α} {rest more : List α} {segments : List (List α)}

theorem append_cons_inj {left right : List α} (leftFree : sep ∉ left) (rightFree : sep ∉ right)
    (same : left ++ sep :: rest = right ++ sep :: more) : left = right ∧ rest = more := by
  induction left generalizing right with
  | nil =>
    cases right with
    | nil => simpa using same
    | cons head tail =>
      simp only [nil_append, cons_append, List.cons.injEq] at same
      exact absurd (same.1 ▸ mem_cons_self) rightFree
  | cons head tail ih =>
    cases right with
    | nil =>
      simp only [nil_append, cons_append, List.cons.injEq] at same
      exact absurd (same.1 ▸ mem_cons_self) leftFree
    | cons other others =>
      simp only [cons_append, List.cons.injEq] at same
      obtain ⟨tails, rests⟩ := ih (fun member => leftFree (mem_cons_of_mem _ member))
        (fun member => rightFree (mem_cons_of_mem _ member)) same.2
      exact ⟨by rw [same.1, tails], rests⟩

theorem append_cons_ne {left : List α} (free : sep ∉ more) : left ++ sep :: rest ≠ more := by
  rintro rfl
  exact free (by simp)

/-- The segments, each followed by the separator. -/
def terminated (sep : α) (segments : List (List α)) : List α :=
  segments.flatMap (· ++ [sep])

@[simp] theorem terminated_nil (sep : α) : terminated sep [] = [] := rfl

@[simp] theorem terminated_cons (sep : α) (segment : List α) (segments : List (List α)) :
    terminated sep (segment :: segments) = segment ++ sep :: terminated sep segments := by
  simp [terminated]

theorem mem_terminated {item : α} : item ∈ terminated sep segments ↔
      ∃ segment ∈ segments, item = sep ∨ item ∈ segment := by
  simp [terminated, or_comm]

theorem terminated_append_inj {others : List (List α)}
    (free : ∀ segment ∈ segments, sep ∉ segment) (othersFree : ∀ segment ∈ others, sep ∉ segment)
    (restFree : sep ∉ rest) (moreFree : sep ∉ more)
    (same : terminated sep segments ++ rest = terminated sep others ++ more) :
    segments = others ∧ rest = more := by
  induction segments generalizing others with
  | nil =>
    cases others with
    | nil => exact ⟨rfl, by simpa using same⟩
    | cons other others =>
      simp only [terminated_nil, nil_append, terminated_cons, append_assoc, cons_append] at same
      exact absurd same.symm (append_cons_ne restFree)
  | cons segment segments ih =>
    cases others with
    | nil =>
      simp only [terminated_nil, nil_append, terminated_cons, append_assoc, cons_append] at same
      exact absurd same (append_cons_ne moreFree)
    | cons other others =>
      simp only [terminated_cons, append_assoc, cons_append] at same
      obtain ⟨heads, tails⟩ := append_cons_inj (free segment mem_cons_self)
        (othersFree other mem_cons_self) same
      obtain ⟨rests, mores⟩ := ih (fun _ member => free _ (mem_cons_of_mem _ member))
        (fun _ member => othersFree _ (mem_cons_of_mem _ member)) tails
      exact ⟨by rw [heads, rests], mores⟩

end InlaySql.Lib
