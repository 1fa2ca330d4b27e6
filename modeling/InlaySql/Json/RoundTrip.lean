import InlaySql.Json.Accepting
import InlaySql.Json.Leaves

/-!
# The round trip

A text is parsed exactly when the grammar spells it, and written documents are parsed back.
A number is written as the text it keeps, so it comes back as the double of that text.
-/

namespace InlaySql.Json

open Sql

theorem parse_iff {value : Json} {text : String} :
    parse text = .ok value ↔ SpellsText value text.toList := by
  constructor
  · intro parsed
    obtain refused | ⟨read, parsed', spells⟩ := parse_sound text
    · rw [refused] at parsed
      cases parsed
    · rw [parsed'] at parsed
      cases parsed
      exact spells
  · exact parse_complete

theorem parse_write {value : Json} (texted : value.Reals RealText) :
    parse (write value) = .ok value.reread := by
  refine parse_complete ⟨[], writeInto value, [], ?_, Ws.nil, Ws.nil, spells_write value texted⟩
  simp [write]

mutual

theorem reread_same (value : Json) (exactly : value.Reals Exact) :
    value.reread.same value = true := by
  cases value with
  | null => rfl
  | bool value => exact beq_self_eq_true value
  | int value => exact beq_self_eq_true value
  | real value written => exact exactly
  | text value => exact beq_self_eq_true value
  | array items => exact mapItems_same items exactly
  | object members => exact mapMembers_same members exactly

theorem mapItems_same (items : List Json) (exactly : RealsItems Exact items) :
    sameItems (mapItems readText items) items = true := by
  cases items with
  | nil => rfl
  | cons item items =>
    simp only [mapItems, sameItems, Bool.and_eq_true]
    exact ⟨reread_same item exactly.1, mapItems_same items exactly.2⟩

theorem mapMembers_same (members : List (String × Json)) (exactly : RealsMembers Exact members) :
    sameMembers (mapMembers readText members) members = true := by
  cases members with
  | nil => rfl
  | cons member members =>
    obtain ⟨key, value⟩ := member
    simp only [mapMembers, sameMembers, beq_self_eq_true, Bool.true_and, Bool.and_eq_true]
    exact ⟨reread_same value exactly.1, mapMembers_same members exactly.2⟩

end

mutual

theorem Spells.settled (value : Json) {word : List Char} (spells : Spells value word) :
    value.Reals Rereads := by
  cases value with
  | real value written =>
    obtain ⟨number, notInteger, rfl, rfl⟩ := spells
    exact ⟨⟨number, notInteger⟩, rfl⟩
  | array items =>
    obtain ⟨inner, -, ⟨rfl, -⟩ | spelled⟩ := spells
    · exact trivial
    · exact SpellsItems.settled items spelled
  | object members =>
    obtain ⟨inner, -, ⟨rfl, -⟩ | spelled⟩ := spells
    · exact trivial
    · exact SpellsMembers.settled members spelled
  | _ => exact trivial

theorem SpellsItems.settled (items : List Json) {word : List Char}
    (spells : SpellsItems items word) : RealsItems Rereads items := by
  cases items with
  | nil => exact trivial
  | cons item items =>
    obtain ⟨before, spelled, after, rest, -, -, -, isItem, others⟩ := spells
    refine ⟨Spells.settled item isItem, ?_⟩
    obtain ⟨rfl, -⟩ | ⟨more, -, others⟩ := others
    · exact trivial
    · exact SpellsItems.settled items others

theorem SpellsMembers.settled (members : List (String × Json)) {word : List Char}
    (spells : SpellsMembers members word) : RealsMembers Rereads members := by
  cases members with
  | nil => exact trivial
  | cons member members =>
    obtain ⟨key, value⟩ := member
    obtain ⟨before, name, beforeColon, afterColon, spelled, after, rest, -, -, -, -, -, -, isValue,
      others⟩ := spells
    refine ⟨Spells.settled value isValue, ?_⟩
    obtain ⟨rfl, -⟩ | ⟨more, -, others⟩ := others
    · exact trivial
    · exact SpellsMembers.settled members others

end

theorem settled_of_parse {text : String} {value : Json} (parsed : parse text = .ok value) :
    value.Reals Rereads := by
  obtain ⟨before, spelled, after, -, -, -, spells⟩ := parse_iff.mp parsed
  exact Spells.settled value spells

theorem parse_write_settled {value : Json} (settled : value.Reals Rereads) :
    parse (write value) = .ok value := by
  rw [parse_write (settled.imp fun _ _ good => good.1), reread_settled settled]

/-- The parser accepts the grammar, reads only where a character begins, and gives back every
document whose doubles are the ones their texts read as. -/
theorem text_roundTrip :
    (∀ text : String, (∃ value, parse text = .ok value) ↔ ∃ value, SpellsText value text.toList) ∧
      (∀ text : String, parse text ≠ .error .panic ∧ parse text ≠ .error .exhausted) ∧
      (∀ value : Json, value.Reals RealText -> value.Reals Exact ->
        ∃ read, parse (write value) = .ok read ∧ read.same value = true) ∧
      ∀ (text : String) (value : Json), parse text = .ok value ->
        parse (write value) = .ok value := by
  refine ⟨?_, ?_, ?_, ?_⟩
  · intro text
    simp only [parse_iff]
  · intro text
    obtain refused | ⟨value, parsed, -⟩ := parse_sound text
    · simp [refused]
    · simp [parsed]
  · intro value texted exactly
    exact ⟨value.reread, parse_write texted, reread_same value exactly⟩
  · intro text value parsed
    exact parse_write_settled (settled_of_parse parsed)

theorem text_roundTrip_nested :
    ∃ read, parse (write (.array [.real ⟨0x4004000000000000⟩ "2.5", .text "\n\"", .int (-7)])) =
      .ok read ∧ read.same (.array [.real ⟨0x4004000000000000⟩ "2.5", .text "\n\"", .int (-7)]) =
        true := by
  have exactly : Exact ⟨0x4004000000000000⟩ "2.5" := by
    unfold Exact
    decide +kernel
  have texted : RealText ⟨0x4004000000000000⟩ "2.5" := by
    refine ⟨⟨[], ['2'], ['.', '5'], [], rfl, .inl rfl, ?_, ?_, .inl rfl⟩, by decide +kernel⟩
    · exact .inr ⟨'2', [], rfl, rfl, by simp, by simp⟩
    · exact .inr ⟨['5'], rfl, by simp, by simp [isDigit]⟩
  exact text_roundTrip.2.2.1 _ ⟨texted, trivial, trivial, trivial⟩ ⟨exactly, trivial, trivial, trivial⟩

/-- A number whose double is not that of its text, as an element rendered in fifteen digits
has, comes back as another. -/
theorem text_roundTrip_inexact : (Json.real ⟨0x3fd3333333333334⟩ "0.3").Reals RealText ∧
      ∃ read, parse (write (.real ⟨0x3fd3333333333334⟩ "0.3")) = .ok read ∧
        read.same (.real ⟨0x3fd3333333333334⟩ "0.3") = false := by
  have texted : (Json.real ⟨0x3fd3333333333334⟩ "0.3").Reals RealText := by
    refine ⟨⟨[], ['0'], ['.', '3'], [], rfl, .inl rfl, .inl rfl,
      .inr ⟨['3'], rfl, by simp, by simp [isDigit]⟩, .inl rfl⟩, by decide +kernel⟩
  exact ⟨texted, _, parse_write texted, by decide +kernel⟩

end InlaySql.Json
