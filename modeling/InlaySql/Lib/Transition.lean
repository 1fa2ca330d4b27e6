import Mathlib

/-!
# Labelled transition systems

A `System` is an initial predicate and a labelled step relation. `Runs` keeps the
finite event trace, newest event last, so an invariant may relate the state
reached to everything that happened on the way.
-/

namespace InlaySql.Lib

/-- An open labelled transition system. -/
structure System (State Event : Type*) where
  Initial : State -> Prop
  Step : State -> Event -> State -> Prop

namespace System

variable {State Event : Type*}

/-- Zero or more steps from a selected state, with their events in order. -/
inductive Steps (system : System State Event) (start : State) : List Event -> State -> Prop where
  | refl : Steps system start [] start
  | step {events current event next}
      (prior : Steps system start events current)
      (transition : system.Step current event next) :
      Steps system start (events ++ [event]) next

/-- Every state the system can be in, with the trace that led there. -/
def Runs (system : System State Event) (events : List Event) (state : State) : Prop :=
  ∃ start, system.Initial start ∧ system.Steps start events state

variable {system : System State Event}

variable {events : List Event} {state : State}

/-- A property of trace and state that holds initially and is kept by every step
holds in every run. -/
theorem Runs.invariant (property : List Event -> State -> Prop)
    (initial : ∀ state, system.Initial state -> property [] state)
    (preserved : ∀ events state event next, property events state ->
      system.Step state event next -> property (events ++ [event]) next)
    (run : system.Runs events state) : property events state := by
  obtain ⟨start, valid, steps⟩ := run
  induction steps with
  | refl => exact initial start valid
  | step _ transition ih => exact preserved _ _ _ _ ih transition

theorem Runs.split {before after : List Event} {event : Event}
    (run : system.Runs (before ++ event :: after) state) :
    ∃ left right, system.Runs before left ∧ system.Step left event right ∧
      system.Steps right after state := by
  obtain ⟨start, valid, steps⟩ := run
  induction after using List.reverseRecOn generalizing state with
  | nil =>
    generalize traceEq : before ++ [event] = trace at steps
    cases steps with
    | refl => simp at traceEq
    | step prior transition =>
      obtain ⟨rfl, last⟩ := List.append_inj' traceEq rfl
      obtain rfl : event = _ := by simpa using last
      exact ⟨_, _, ⟨start, valid, prior⟩, transition, .refl⟩
  | append_singleton after last ih =>
    generalize traceEq : before ++ event :: (after ++ [last]) = trace at steps
    cases steps with
    | refl => simp at traceEq
    | @step events current final next prior transition =>
      have joined : (before ++ event :: after) ++ [last] = events ++ [final] := by
        simpa using traceEq
      obtain ⟨rfl, lastEq⟩ := List.append_inj' joined rfl
      obtain rfl : last = final := by simpa using lastEq
      obtain ⟨left, right, leftRun, middle, suffix⟩ := ih prior
      exact ⟨left, right, leftRun, middle, .step suffix transition⟩

theorem Steps.relates (relation : State -> State -> Prop) (refl : ∀ state, relation state state)
    (trans : ∀ {a b c}, relation a b -> relation b c -> relation a c)
    (step : ∀ {state event next}, system.Step state event next -> relation state next)
    {start : State} (steps : system.Steps start events state) : relation start state := by
  induction steps with
  | refl => exact refl start
  | step _ transition ih => exact trans ih (step transition)

end System

end InlaySql.Lib
