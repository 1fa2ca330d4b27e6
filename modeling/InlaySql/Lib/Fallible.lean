import Mathlib

/-!
# Computations that may fail

How a `do` block in `Except` that succeeded is taken apart.
-/

namespace InlaySql.Lib

variable {ε α β σ : Type} {step : σ -> α -> Except ε σ} (property : σ -> Prop) {items : List α}
  {state : σ}

theorem bind_eq_ok {first : Except ε α} {rest : α -> Except ε β} {result : β}
    (succeeded : first >>= rest = .ok result) :
    ∃ value, first = .ok value ∧ rest value = .ok result := by
  cases first with
  | error error => cases succeeded
  | ok value => exact ⟨value, rfl, succeeded⟩

theorem ok_bind (value : α) (rest : α → Except ε β) : (Except.ok value >>= rest) = rest value := rfl

theorem guard_eq_ok {refused : Prop} [Decidable refused] {error : ε} {rest : Unit -> Except ε α}
    {result : α} (succeeded : (if refused then throw error >>= rest else rest ()) = .ok result) :
    ¬refused ∧ rest () = .ok result := by
  by_cases closed : refused
  · rw [if_pos closed] at succeeded
    cases succeeded
  · rw [if_neg closed] at succeeded
    exact ⟨closed, succeeded⟩

theorem foldlM_keeps
    (kept : ∀ state item next, property state -> step state item = .ok next -> property next)
    {final : σ} (holds : property state) (folded : items.foldlM step state = .ok final) :
    property final := by
  induction items generalizing state with
  | nil =>
    cases folded
    exact holds
  | cons item items ih =>
    rw [List.foldlM_cons] at folded
    obtain ⟨next, stepped, rest⟩ := bind_eq_ok folded
    exact ih (kept state item next holds stepped) rest

theorem foldlM_succeeds (succeeds : ∀ state, ∀ item ∈ items, property state ->
      ∃ next, step state item = .ok next ∧ property next) (holds : property state) :
    ∃ final, items.foldlM step state = .ok final ∧ property final := by
  induction items generalizing state with
  | nil => exact ⟨state, rfl, holds⟩
  | cons item items ih =>
    obtain ⟨next, stepped, kept⟩ := succeeds state item List.mem_cons_self holds
    rw [List.foldlM_cons, stepped, ok_bind]
    exact ih (fun state item member => succeeds state item (List.mem_cons_of_mem _ member)) kept

/-- Every step of a fold meets a condition, in the state it is taken in. -/
def Throughout {ε σ α : Type} (step : σ -> α -> Except ε σ) (meets : σ -> α -> Prop) :
    σ -> List α -> Prop
  | _, [] => True
  | state, item :: items =>
    meets state item ∧ ∀ next, step state item = .ok next -> Throughout step meets next items

theorem Throughout.keeps {meets : σ -> α -> Prop}
    (kept : ∀ state item next, property state -> meets state item ->
      step state item = .ok next -> property next) {final : σ}
    (met : Throughout step meets state items) (holds : property state)
    (folded : items.foldlM step state = .ok final) : property final := by
  induction items generalizing state with
  | nil =>
    cases folded
    exact holds
  | cons item items ih =>
    rw [List.foldlM_cons] at folded
    obtain ⟨next, stepped, rest⟩ := bind_eq_ok folded
    exact ih (met.2 next stepped) (kept state item next holds met.1 stepped) rest

theorem map_eq_ok {result : Except ε α} {f : α -> β} {value : β}
    (succeeded : result.map f = .ok value) : ∃ before, result = .ok before ∧ f before = value := by
  cases result with
  | error error => cases succeeded
  | ok before => exact ⟨before, rfl, Except.ok.inj succeeded⟩

end InlaySql.Lib
