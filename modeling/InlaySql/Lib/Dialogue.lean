import Mathlib

/-!
# Dialogues

One party of a protocol as a computation that sends messages and receives them, the other
as a strategy: from all that was said so far, its next message or none. A fixed sequence of
messages is a strategy that ignores the answers, so what holds against every strategy holds
for every sequence.
-/

namespace InlaySql.Lib

/-- One message of a dialogue, as the computing party sees it. -/
inductive Turn (ι ο : Type) where
  | received (message : ι)
  | sent (message : ο)

/-- The other party: what it reply next, or `none` once it hangs up. -/
abbrev Strategy (ι ο : Type) := List (Turn ι ο) -> Option ι

/-- A computation that talks to a strategy. The turns taken so far are its state. -/
def Dialogue (ι ο α : Type) : Type := Strategy ι ο -> List (Turn ι ο) -> α × List (Turn ι ο)

/-- What the computing party said. -/
def said {ι ο : Type} (turns : List (Turn ι ο)) : List ο :=
  turns.filterMap fun
    | .received _ => none
    | .sent message => some message

namespace Dialogue

variable {ι ο α β : Type}

instance : Monad (Dialogue ι ο) where
  pure value := fun _ turns => (value, turns)
  bind first rest := fun other turns =>
    rest (first other turns).1 other (first other turns).2

/-- Say something. -/
def send (message : ο) : Dialogue ι ο Unit := fun _ turns => ((), turns ++ [.sent message])

/-- Wait for the other party; `none` when it has hung up. -/
def receive : Dialogue ι ο (Option ι) := fun other turns =>
  match other turns with
  | some message => (some message, turns ++ [.received message])
  | none => (none, turns)

section Equations

variable {other : Strategy ι ο} {turns : List (Turn ι ο)}

@[simp] theorem pure_run (value : α) :
    (pure value : Dialogue ι ο α) other turns = (value, turns) := rfl

@[simp] theorem bind_run (first : Dialogue ι ο α) (rest : α -> Dialogue ι ο β) :
    (first >>= rest) other turns = rest (first other turns).1 other (first other turns).2 := rfl

@[simp] theorem send_run (message : ο) :
    (send message : Dialogue ι ο Unit) other turns = ((), turns ++ [.sent message]) := rfl

theorem receive_of_some {message : ι} (reply : other turns = some message) :
    (receive : Dialogue ι ο (Option ι)) other turns =
      (some message, turns ++ [.received message]) := by
  simp [receive, reply]

theorem receive_of_none (silent : other turns = none) :
    (receive : Dialogue ι ο (Option ι)) other turns = (none, turns) := by
  simp [receive, silent]

end Equations

/-! ## What was said stays said -/

/-- The computation only adds to the record. -/
def Records (self : Dialogue ι ο α) : Prop :=
  ∀ other turns, turns <+: (self other turns).2

namespace Records

theorem pure (value : α) : Records (Pure.pure value : Dialogue ι ο α) :=
  fun _ turns => List.prefix_refl turns

theorem bind {first : Dialogue ι ο α} {rest : α -> Dialogue ι ο β} (one : Records first)
    (more : ∀ value, Records (rest value)) : Records (first >>= rest) :=
  fun other turns => (one other turns).trans (more _ other _)

theorem send (message : ο) : Records (Dialogue.send message : Dialogue ι ο Unit) :=
  fun _ turns => List.prefix_append turns _

theorem receive : Records (Dialogue.receive : Dialogue ι ο (Option ι)) := by
  intro other turns
  cases reply : other turns with
  | none => simp [receive_of_none reply]
  | some message => simp [receive_of_some reply]

end Records

end Dialogue

/-! ## Strategies -/

/-- How many messages the other party has sent. -/
def spoken {ι ο : Type} (turns : List (Turn ι ο)) : Nat :=
  turns.countP fun
    | .received _ => true
    | .sent _ => false

end InlaySql.Lib
