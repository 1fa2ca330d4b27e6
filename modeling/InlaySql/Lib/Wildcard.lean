import Mathlib.Data.List.Forall2
import Mathlib.Tactic.Cases

/-!
# Patterns with runs

A pattern is a sequence of pieces: a run takes any stretch of a text, a single takes one
item it accepts. A text is in the language of a pattern when it splits into parts its
pieces take in order. The last section is the exchange argument behind matching with one
retry point: once the pieces between two runs have been placed as far left as they go,
nothing is lost by never moving them again.
-/

namespace InlaySql.Lib.Wildcard

open List

variable {α : Type}

/-- One piece of a pattern. -/
inductive Piece (α : Type) where
  | run
  | single (accepts : α -> Bool)

/-- The part of a text a piece takes. -/
def Piece.Takes : Piece α -> List α -> Prop
  | .run, _ => True
  | .single accepts, part => ∃ item, part = [item] ∧ accepts item = true

/-- The text splits into parts the pieces take, in order. -/
def Splits (pieces : List (Piece α)) (text : List α) : Prop :=
  ∃ parts : List (List α), parts.flatten = text ∧ List.Forall₂ Piece.Takes pieces parts

/-! ## One piece after the other -/

variable {text : List α} {pieces : List (Piece α)} {accepts : α -> Bool} {lead : List (Piece α)}
  {front : List α}

@[simp] theorem splits_nil : Splits [] text ↔ text = [] := by
  constructor
  · rintro ⟨parts, rfl, taken⟩
    cases taken
    rfl
  · rintro rfl
    exact ⟨[], rfl, .nil⟩

theorem splits_cons {piece : Piece α} : Splits (piece :: pieces) text ↔
      ∃ part rest, text = part ++ rest ∧ piece.Takes part ∧ Splits pieces rest := by
  constructor
  · rintro ⟨parts, rfl, taken⟩
    cases taken with
    | cons first later => exact ⟨_, _, flatten_cons, first, _, rfl, later⟩
  · rintro ⟨part, rest, rfl, first, parts, rfl, later⟩
    exact ⟨part :: parts, flatten_cons, .cons first later⟩

theorem splits_run :
    Splits (.run :: pieces) text ↔ ∃ skipped rest, text = skipped ++ rest ∧ Splits pieces rest := by
  simp [splits_cons, Piece.Takes]

theorem splits_single : Splits (.single accepts :: pieces) text ↔
      ∃ item rest, text = item :: rest ∧ accepts item = true ∧ Splits pieces rest := by
  rw [splits_cons]
  constructor
  · rintro ⟨_, rest, rfl, ⟨item, rfl, accepted⟩, later⟩
    exact ⟨item, rest, rfl, accepted, later⟩
  · rintro ⟨item, rest, rfl, accepted, later⟩
    exact ⟨[item], rest, rfl, ⟨item, rfl, accepted⟩, later⟩

theorem splits_single_cons {item : α} : Splits (.single accepts :: pieces) (item :: text) ↔
      accepts item = true ∧ Splits pieces text := by
  rw [splits_single]
  constructor
  · rintro ⟨_, _, same, accepted, later⟩
    cases same
    exact ⟨accepted, later⟩
  · rintro ⟨accepted, later⟩
    exact ⟨item, text, rfl, accepted, later⟩

theorem splits_append {first second : List (Piece α)} : Splits (first ++ second) text ↔
      ∃ front back, text = front ++ back ∧ Splits first front ∧ Splits second back := by
  induction first generalizing text with
  | nil => simp
  | cons piece first ih =>
    rw [cons_append, splits_cons]
    constructor
    · rintro ⟨part, rest, rfl, taken, later⟩
      obtain ⟨front, back, rfl, before, after⟩ := ih.mp later
      exact ⟨part ++ front, back, (append_assoc ..).symm,
        splits_cons.mpr ⟨part, front, rfl, taken, before⟩, after⟩
    · rintro ⟨front, back, rfl, before, after⟩
      obtain ⟨part, rest, rfl, taken, later⟩ := splits_cons.mp before
      exact ⟨part, rest ++ back, append_assoc .., taken, ih.mpr ⟨rest, back, rfl, later, after⟩⟩

theorem splits_empty : Splits pieces [] ↔ ∀ piece ∈ pieces, piece = .run := by
  induction pieces with
  | nil => simp
  | cons piece pieces ih =>
    rw [forall_mem_cons, <- ih]
    cases piece with
    | run => simp [splits_run]
    | single accepts => simp [splits_single]

/-! ## Placing the pieces between two runs -/

/-- No piece is a run. -/
def Fixed (pieces : List (Piece α)) : Prop := ∀ piece ∈ pieces, piece ≠ .run

theorem Fixed.snoc (fixed : Fixed pieces) : Fixed (pieces ++ [.single accepts]) := by
  intro piece isPiece
  obtain old | new := mem_append.mp isPiece
  · exact fixed piece old
  · rw [mem_singleton.mp new]
    exact fun same => by cases same

theorem Splits.length_eq (splits : Splits pieces text) (fixed : Fixed pieces) :
    text.length = pieces.length := by
  induction pieces generalizing text with
  | nil => simp [splits_nil.mp splits]
  | cons piece pieces ih =>
    obtain ⟨notRun, later⟩ := forall_mem_cons.mp fixed
    cases piece with
    | run => exact absurd rfl notRun
    | single accepts =>
      obtain ⟨item, rest, rfl, -, splits⟩ := splits_single.mp splits
      simp [ih splits later]

section

variable {back : List α} (fixed : Fixed lead) (placed : Splits lead front)

include fixed placed

theorem splits_placed : Splits (lead ++ pieces) (front ++ back) ↔ Splits pieces back := by
  constructor
  · intro splits
    obtain ⟨front', back', same, placed', later⟩ := splits_append.mp splits
    have lengths : front.length = front'.length := by
      rw [placed.length_eq fixed, placed'.length_eq fixed]
    obtain ⟨-, rfl⟩ := append_inj same lengths
    exact later
  · intro later
    exact splits_append.mpr ⟨front, back, rfl, placed, later⟩

theorem splits_exchange :
    Splits (.run :: lead ++ .run :: pieces) (front ++ back) ↔ Splits (.run :: pieces) back := by
  rw [cons_append, splits_run]
  constructor
  · rintro ⟨skipped, rest, same, splits⟩
    obtain ⟨front', back', rfl, placed', later⟩ := splits_append.mp splits
    have lengths : front.length = front'.length := by
      rw [placed.length_eq fixed, placed'.length_eq fixed]
    -- The later placement ends after the earlier one, and the second run spans the gap.
    obtain ⟨between, rfl⟩ : ∃ between, back = between ++ back' := by
      have whole : back' <:+ front ++ back := ⟨skipped ++ front', by rw [same, append_assoc]⟩
      refine suffix_of_suffix_length_le whole ⟨front, rfl⟩ ?_ |>.imp fun between same => same.symm
      have total := congrArg List.length same
      simp only [length_append] at total
      omega
    obtain ⟨skipped', rest', rfl, splits'⟩ := splits_run.mp later
    exact splits_run.mpr ⟨between ++ skipped', rest', (append_assoc ..).symm, splits'⟩
  · intro later
    exact ⟨[], front ++ back, rfl, splits_append.mpr ⟨front, back, rfl, placed, later⟩⟩

end

theorem splits_retry {item : α} (misfit : ¬ Splits pieces (item :: text)) :
    Splits (.run :: pieces) (item :: text) ↔ Splits (.run :: pieces) text := by
  rw [splits_run, splits_run]
  constructor
  · rintro ⟨skipped, rest, same, splits⟩
    cases skipped with
    | nil =>
      obtain rfl : item :: text = rest := same
      exact absurd splits misfit
    | cons head skipped =>
      obtain ⟨rfl, rfl⟩ := List.cons.inj same
      exact ⟨skipped, rest, rfl, splits⟩
  · rintro ⟨skipped, rest, rfl, splits⟩
    exact ⟨item :: skipped, rest, rfl, splits⟩

theorem splits_ended (fixed : Fixed lead) (placed : Splits lead front) :
    Splits (.run :: lead ++ pieces) front ↔ Splits pieces [] := by
  rw [cons_append, splits_run]
  constructor
  · rintro ⟨skipped, rest, rfl, splits⟩
    obtain ⟨front', back', rfl, placed', later⟩ := splits_append.mp splits
    have lengths := placed.length_eq fixed
    rw [<- placed'.length_eq fixed] at lengths
    simp only [length_append] at lengths
    obtain rfl : back' = [] := length_eq_zero_iff.mp (by omega)
    exact later
  · intro later
    exact ⟨[], front, rfl, splits_append.mpr ⟨front, [], by simp, placed, later⟩⟩

end InlaySql.Lib.Wildcard
