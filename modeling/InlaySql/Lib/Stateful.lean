import InlaySql.Lib.Fallible

/-!
# Computations over a state that survives failure

A method that may change its object and may fail leaves the object as it was when the
failure was raised: nothing is undone. A `Stateful` computation takes a state to an
outcome and a state, whether or not the outcome is an error. The rules below carry a
property of the state, or a relation between two states, through the parts of such a
computation.
-/

namespace InlaySql.Lib

/-- A computation that may change a state and may fail. -/
def Stateful (σ ε α : Type) : Type := σ -> Except ε α × σ

namespace Stateful

variable {σ ε α β : Type}

instance : Monad (Stateful σ ε) where
  pure value := fun state => (.ok value, state)
  bind first rest := fun state =>
    match first state with
    | (.ok value, next) => rest value next
    | (.error error, next) => (.error error, next)

instance : LawfulMonad (Stateful σ ε) := LawfulMonad.mk' _
  (fun self => by
    funext state
    simp only [Functor.map]
    cases self state with
    | mk answer next => cases answer <;> rfl)
  (fun _ _ => rfl)
  (fun first middle last => by
    funext state
    simp only [bind]
    cases first state with
    | mk answer next => cases answer <;> rfl)

/-- Stop with an error. -/
def fail (error : ε) : Stateful σ ε α := fun state => (.error error, state)

/-- Compute from the state without changing it. -/
def gets (read : σ -> α) : Stateful σ ε α := fun state => (.ok (read state), state)

/-- Compute from the state without changing it, or fail. -/
def tryGets (read : σ -> Except ε α) : Stateful σ ε α := fun state => (read state, state)

/-- Change the state. -/
def change (update : σ -> σ) : Stateful σ ε Unit := fun state => (.ok (), update state)

/-- A computation that does not touch the state. -/
def ofExcept (result : Except ε α) : Stateful σ ε α := fun state => (result, state)

/-- Run a computation and hand its outcome, good or bad, to what follows. -/
def outcome (self : Stateful σ ε α) : Stateful σ ε (Except ε α) := fun state =>
  (.ok (self state).1, (self state).2)

section Equations

variable {state : σ}

@[simp] theorem pure_apply (value : α) : (pure value : Stateful σ ε α) state = (.ok value, state) :=
  rfl

@[simp] theorem fail_apply (error : ε) : (fail error : Stateful σ ε α) state = (.error error, state) :=
  rfl

@[simp] theorem gets_apply (read : σ -> α) :
    (gets read : Stateful σ ε α) state = (.ok (read state), state) := rfl

@[simp] theorem tryGets_apply (read : σ → Except ε α) : tryGets read state = (read state, state) := rfl

@[simp] theorem change_apply (update : σ -> σ) :
    (change update : Stateful σ ε Unit) state = (.ok (), update state) := rfl

@[simp] theorem ofExcept_apply (result : Except ε α) :
    (ofExcept result : Stateful σ ε α) state = (result, state) := rfl

@[simp] theorem outcome_apply (self : Stateful σ ε α) :
    self.outcome state = (.ok (self state).1, (self state).2) := rfl

theorem bind_apply (first : Stateful σ ε α) (rest : α -> Stateful σ ε β) : (first >>= rest) state =
      match first state with
      | (.ok value, next) => rest value next
      | (.error error, next) => (.error error, next) := rfl

variable {first : Stateful σ ε α} {rest : α -> Stateful σ ε β} {next : σ}

theorem bind_of_ok {value : α} (ran : first state = (.ok value, next)) :
    (first >>= rest) state = rest value next := by
  rw [bind_apply, ran]

theorem bind_of_error {error : ε} (ran : first state = (.error error, next)) :
    (first >>= rest) state = (.error error, next) := by
  rw [bind_apply, ran]

theorem bind_eq_ok {value : β} (ran : (first >>= rest) state = (.ok value, next)) :
    ∃ middle between, first state = (.ok middle, between) ∧
      rest middle between = (.ok value, next) := by
  rw [bind_apply] at ran
  cases result : first state with
  | mk answer between =>
    rw [result] at ran
    cases answer with
    | error error => cases ran
    | ok middle => exact ⟨middle, between, rfl, ran⟩

end Equations

/-! ## Invariants -/

/-- Whatever the outcome, the property still holds afterwards. -/
def Keeps (property : σ -> Prop) (self : Stateful σ ε α) : Prop :=
  ∀ state, property state -> property (self state).2

namespace Keeps

variable {property : σ -> Prop}

theorem pure (value : α) : Keeps property (Pure.pure value : Stateful σ ε α) := fun _ holds => holds

theorem fail (error : ε) : Keeps property (Stateful.fail error : Stateful σ ε α) :=
  fun _ holds => holds

theorem gets (read : σ -> α) : Keeps property (Stateful.gets read : Stateful σ ε α) :=
  fun _ holds => holds

theorem change {update : σ -> σ} (kept : ∀ state, property state -> property (update state)) :
    Keeps property (Stateful.change update : Stateful σ ε Unit) := kept

theorem outcome {self : Stateful σ ε α} (kept : Keeps property self) : Keeps property self.outcome :=
  kept

theorem bind {first : Stateful σ ε α} {rest : α -> Stateful σ ε β} (kept : Keeps property first)
    (later : ∀ value, Keeps property (rest value)) : Keeps property (first >>= rest) := by
  intro state holds
  have held := kept state holds
  rw [bind_apply]
  cases ran : first state with
  | mk answer next =>
    rw [ran] at held
    cases answer with
    | error error => exact held
    | ok value => exact later value next held

theorem forM {γ : Type} {step : γ -> Stateful σ ε PUnit} (kept : ∀ item, Keeps property (step item))
    (items : List γ) : Keeps property (items.forM step) := by
  induction items with
  | nil => exact .pure PUnit.unit
  | cons item items ih =>
    exact (kept item).bind fun _ => ih

end Keeps

/-! ## What a success comes to -/

namespace Achieves

variable {relation : σ -> σ -> Prop}

end Achieves

/-! ## What a computation ends in -/

/-- From a state with the property the computation ends in a state with it, answers only
what is `good` and fails only with what is `allowed`. -/
def Ends (property : σ -> Prop) (good : α -> Prop) (allowed : ε -> Prop)
    (self : Stateful σ ε α) : Prop :=
  ∀ state, property state -> property (self state).2 ∧
    match (self state).1 with
    | .ok value => good value
    | .error error => allowed error

namespace Ends

variable {property : σ -> Prop} {good : α -> Prop} {next : β -> Prop} {allowed : ε -> Prop}

theorem pure {value : α} (holds : good value) :
    Ends property good allowed (Pure.pure value : Stateful σ ε α) := fun _ kept => ⟨kept, holds⟩

theorem fail {error : ε} (holds : allowed error) :
    Ends property good allowed (Stateful.fail error : Stateful σ ε α) := fun _ kept => ⟨kept, holds⟩

theorem gets {read : σ -> α} (reads : ∀ state, property state -> good (read state)) :
    Ends property good allowed (Stateful.gets read : Stateful σ ε α) :=
  fun state kept => ⟨kept, reads state kept⟩

theorem tryGets {read : σ -> Except ε α}
    (answers : ∀ state value, property state -> read state = .ok value -> good value)
    (fails : ∀ state error, property state -> read state = .error error -> allowed error) :
    Ends property good allowed (Stateful.tryGets read) := by
  intro state kept
  refine ⟨kept, ?_⟩
  rw [tryGets_apply]
  cases told : read state with
  | ok value => exact answers state value kept told
  | error error => exact fails state error kept told

theorem change {update : σ -> σ} {good : Unit -> Prop}
    (kept : ∀ state, property state -> property (update state)) (holds : good ()) :
    Ends property good allowed (Stateful.change update : Stateful σ ε Unit) :=
  fun state before => ⟨kept state before, holds⟩

theorem of_ok {self : Stateful σ ε α} {answer : σ -> α} {update : σ -> σ}
    (same : ∀ state, self state = (.ok (answer state), update state))
    (kept : ∀ state, property state -> property (update state) ∧ good (answer state)) :
    Ends property good allowed self := by
  intro state before
  rw [same state]
  exact kept state before

variable {first : Stateful σ ε α} {rest : α -> Stateful σ ε β}

theorem bind (done : Ends property good allowed first)
    (later : ∀ value, good value -> Ends property next allowed (rest value)) :
    Ends property next allowed (first >>= rest) := by
  intro state before
  have ended := done state before
  rw [bind_apply]
  cases ran : first state with
  | mk answer between =>
    rw [ran] at ended
    cases answer with
    | error error => exact ended
    | ok value => exact later value ended.2 between ended.1

theorem through (good : α -> Prop) (done : Ends property good allowed first)
    (later : ∀ value, good value -> Ends property next allowed (rest value)) :
    Ends property next allowed (first >>= rest) := done.bind later

theorem forM {γ : Type} {step : γ -> Stateful σ ε PUnit} {items : List γ}
    (done : ∀ item ∈ items, Ends property (fun _ => True) allowed (step item)) :
    Ends property (fun _ => True) allowed (items.forM step) := by
  induction items with
  | nil => exact .pure trivial
  | cons item items ih =>
    rw [List.forall_mem_cons] at done
    exact done.1.bind fun _ _ => ih done.2

end Ends

/-! ## Two runs side by side -/

namespace Parallel

variable {relation : σ -> σ -> Prop}

end Parallel

end Stateful

end InlaySql.Lib
