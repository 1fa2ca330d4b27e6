import InlaySql.Json.Grammar

/-!
# The serializer

A document is written without whitespace, a number that is no integer as the text it keeps.
What is written spells the document with every such number read from its text.
-/

namespace InlaySql.Json

open List Sql

/-- `i64::to_string`. -/
def decimal (value : Int) : List Char :=
  if value < 0 then '-' :: Nat.toDigits 10 value.natAbs else Nat.toDigits 10 value.natAbs

/-- One character of `write_string`. -/
def writeChar (c : Char) : List Char :=
  if c = '"' then ['\\', '"']
  else if c = '\\' then ['\\', '\\']
  else if c = Char.ofNat 8 then ['\\', 'b']
  else if c = Char.ofNat 12 then ['\\', 'f']
  else if c = '\n' then ['\\', 'n']
  else if c = '\r' then ['\\', 'r']
  else if c = '\t' then ['\\', 't']
  else if c.toNat < 0x20 then '\\' :: 'u' :: (Nat.toDigits 16 c.toNat).leftpad 4 '0'
  else [c]

def writeString (value : String) : List Char := '"' :: value.toList.flatMap writeChar ++ ['"']

mutual

def writeInto : Json -> List Char
  | .null => "null".toList
  | .bool true => "true".toList
  | .bool false => "false".toList
  | .int value => decimal value.toInt
  | .real _ written => written.toList
  | .text value => writeString value
  | .array items => '[' :: writeItems 0 items ++ [']']
  | .object members => '{' :: writeMembers 0 members ++ ['}']

/-- The elements from the one at an index on. -/
def writeItems : Nat -> List Json -> List Char
  | _, [] => []
  | index, item :: items =>
    (if 0 < index then [','] else []) ++ writeInto item ++ writeItems (index + 1) items

/-- The members, likewise. -/
def writeMembers : Nat -> List (String × Json) -> List Char
  | _, [] => []
  | index, (key, value) :: members =>
    (if 0 < index then [','] else []) ++ writeString key ++ ':' :: writeInto value ++
      writeMembers (index + 1) members

end

def write (value : Json) : String := String.ofList (writeInto value)

/-! ## Integers -/

theorem isDigit_digitChar {digit : Nat} (small : digit < 10) :
    isDigit digit.digitChar = true ∧ digitValue digit.digitChar = digit := by
  have code := Nat.toNat_digitChar_of_lt_ten small
  constructor
  · simp only [isDigit, Bool.and_eq_true, decide_eq_true_eq, Char.le_def, UInt32.le_iff_toNat_le]
    change 48 ≤ digit.digitChar.toNat ∧ digit.digitChar.toNat ≤ 57
    omega
  · rw [digitValue, code]
    exact Nat.add_sub_cancel_left 48 digit

theorem toDigits_spec (number : Nat) :
    Integral (Nat.toDigits 10 number) ∧ natOf (Nat.toDigits 10 number) = number ∧
      (Nat.toDigits 10 number = ['0'] -> number = 0) := by
  induction number using Nat.strongRecOn with
  | ind number ih =>
    rcases Nat.lt_or_ge number 10 with small | large
    · rw [Nat.toDigits_of_lt_base small]
      obtain ⟨digit, value⟩ := isDigit_digitChar small
      refine ⟨?_, ?_, ?_⟩
      · by_cases zero : number = 0
        · subst zero
          exact .inl rfl
        · refine .inr ⟨_, [], rfl, digit, ?_, by simp⟩
          rwa [ne_eq, Nat.digitChar_eq_zero]
      · simp [natOf, value]
      · intro same
        simpa using same
    · rw [Nat.toDigits_of_base_le (by decide) large]
      obtain ⟨digit, value⟩ := isDigit_digitChar (Nat.mod_lt number (by decide : 0 < 10))
      obtain ⟨integral, reads, notZero⟩ := ih (number / 10) (by omega)
      refine ⟨?_, ?_, ?_⟩
      · obtain zero | ⟨first, digits, split, isFirst, nonzero, all⟩ := integral
        · have none := notZero zero
          omega
        · refine .inr ⟨first, digits ++ [(number % 10).digitChar], by rw [split]; rfl, isFirst,
            nonzero, ?_⟩
          simp only [mem_append, mem_singleton]
          rintro c (inside | rfl)
          · exact all c inside
          · exact digit
      · rw [natOf, foldl_append]
        change natOf (Nat.toDigits 10 (number / 10)) * 10 + digitValue _ = number
        rw [reads, value]
        omega
      · intro same
        have length := congrArg List.length same
        have nonempty : 0 < (Nat.toDigits 10 (number / 10)).length := Nat.length_toDigits_pos
        simp only [length_append, length_singleton] at length
        omega

theorem Integral.digits {word : List Char} (integral : Integral word) : Digits word := by
  obtain rfl | ⟨first, digits, rfl, digit, -, all⟩ := integral
  · exact ⟨by simp, by simp [isDigit]⟩
  · refine ⟨by simp, ?_⟩
    simp only [mem_cons, forall_eq_or_imp]
    exact ⟨digit, all⟩

theorem number_decimal (value : Int) : Number (decimal value) := by
  obtain ⟨integral, -, -⟩ := toDigits_spec value.natAbs
  by_cases negative : value < 0
  · exact ⟨['-'], _, [], [], by simp [decimal, negative], .inr rfl, integral, .inl rfl, .inl rfl⟩
  · exact ⟨[], _, [], [], by simp [decimal, negative], .inl rfl, integral, .inl rfl, .inl rfl⟩

theorem readI64_digits {word : List Char} (digits : Digits word) :
    readI64 word = toI64? (natOf word) := by
  obtain ⟨nonempty, all⟩ := digits
  have every : word.all isDigit = true := all_eq_true.mpr all
  unfold readI64
  split
  rename_i negative rest sign
  split at sign
  · exact absurd (all '-' mem_cons_self) (by decide)
  · exact absurd (all '+' mem_cons_self) (by decide)
  · cases sign
    simp [nonempty, every]

theorem toI64?_toInt (value : Int64) : toI64? value.toInt = some value := by
  rw [toI64?, if_pos ⟨value.le_toInt, value.toInt_lt⟩, Int64.ofInt_toInt]

theorem readI64_decimal (value : Int64) : readI64 (decimal value.toInt) = some value := by
  obtain ⟨integral, reads, -⟩ := toDigits_spec value.toInt.natAbs
  have digits := integral.digits
  by_cases negative : value.toInt < 0
  · have amount : -(value.toInt.natAbs : Int) = value.toInt := by omega
    have every : (Nat.toDigits 10 value.toInt.natAbs).all isDigit = true :=
      all_eq_true.mpr digits.2
    simp only [readI64, decimal, negative, if_true, ne_eq, digits.1, not_false_eq_true, every,
      and_self, reads, amount, toI64?_toInt]
  · have amount : (value.toInt.natAbs : Int) = value.toInt := by omega
    rw [decimal, if_neg negative, readI64_digits digits, reads, amount, toI64?_toInt]

/-! ## Strings -/

theorem codeUnit_leftpad {code : Nat} (control : code < 0x20) :
    codeUnit ((Nat.toDigits 16 code).leftpad 4 '0') = some code := by
  have all : ∀ code < 0x20, codeUnit ((Nat.toDigits 16 code).leftpad 4 '0') = some code := by
    decide +kernel
  exact all code control

theorem quoted_writeChar (c : Char) {text chars : List Char} (later : Quoted text chars) :
    Quoted (writeChar c ++ text) (c :: chars) := by
  unfold writeChar
  split_ifs with quote slash backspace formFeed newline carriage tab control
  · exact .short (by rw [quote]; rfl) later
  · exact .short (by rw [slash]; rfl) later
  · exact .short (by rw [backspace]; rfl) later
  · exact .short (by rw [formFeed]; rfl) later
  · exact .short (by rw [newline]; rfl) later
  · exact .short (by rw [carriage]; rfl) later
  · exact .short (by rw [tab]; rfl) later
  · have unit := Quoted.unicode (codeUnit_leftpad control) (by unfold IsHigh; omega)
      (by unfold IsLow; omega) later
    rwa [Char.ofNat_toNat] at unit
  · exact .plain ⟨Nat.le_of_not_lt control, quote, slash⟩ later

theorem spellsString_write (value : String) : SpellsString value (writeString value) := by
  refine ⟨_, rfl, ?_⟩
  induction value.toList with
  | nil => exact .nil
  | cons c chars ih =>
    rw [flatMap_cons]
    exact quoted_writeChar c ih

/-! ## Documents -/

mutual

/-- The document with every number that is no integer replaced. -/
def mapReals (f : F64 -> String -> F64 × String) : Json -> Json
  | .null => .null
  | .bool value => .bool value
  | .int value => .int value
  | .real value written => .real (f value written).1 (f value written).2
  | .text value => .text value
  | .array items => .array (mapItems f items)
  | .object members => .object (mapMembers f members)

def mapItems (f : F64 -> String -> F64 × String) : List Json -> List Json
  | [] => []
  | item :: items => item.mapReals f :: mapItems f items

def mapMembers (f : F64 -> String -> F64 × String) : List (String × Json) -> List (String × Json)
  | [] => []
  | (key, value) :: members => (key, value.mapReals f) :: mapMembers f members

end

/-- A number with the double its text reads as. -/
def readText (_ : F64) (written : String) : F64 × String := (readF64 written.toList, written)

/-- The document its texts stand for. -/
abbrev reread (value : Json) : Json := value.mapReals readText

mutual

/-- What holds of every number that is no integer, and of its text. -/
def Reals (holds : F64 -> String -> Prop) : Json -> Prop
  | .real value written => holds value written
  | .array items => RealsItems holds items
  | .object members => RealsMembers holds members
  | _ => True

def RealsItems (holds : F64 -> String -> Prop) : List Json -> Prop
  | [] => True
  | item :: items => item.Reals holds ∧ RealsItems holds items

def RealsMembers (holds : F64 -> String -> Prop) : List (String × Json) -> Prop
  | [] => True
  | (_, value) :: members => value.Reals holds ∧ RealsMembers holds members

end

/-- A text of the grammar that does not read as an integer. -/
def RealText (_ : F64) (written : String) : Prop :=
  Number written.toList ∧ readI64 written.toList = none

/-- A double equal to the one its text reads as. -/
def Exact (value : F64) (written : String) : Prop :=
  (readF64 written.toList).eq value = true

mutual

theorem spells_write (value : Json) (texted : value.Reals RealText) :
    Spells value.reread (writeInto value) := by
  cases value with
  | null => simp [Spells, mapReals, writeInto]
  | bool value => cases value <;> simp [Spells, mapReals, writeInto]
  | int value => exact ⟨number_decimal _, readI64_decimal value⟩
  | real value written => exact ⟨texted.1, texted.2, rfl, rfl⟩
  | text value => exact spellsString_write value
  | array items =>
    refine ⟨_, rfl, ?_⟩
    by_cases empty : items = []
    · subst empty
      exact .inl ⟨rfl, by simp [Ws, writeItems]⟩
    · obtain ⟨word, written, spells⟩ := spells_writeItems items 0 empty texted
      rw [written]
      exact .inr spells
  | object members =>
    refine ⟨_, rfl, ?_⟩
    by_cases empty : members = []
    · subst empty
      exact .inl ⟨rfl, by simp [Ws, writeMembers]⟩
    · obtain ⟨word, written, spells⟩ := spells_writeMembers members 0 empty texted
      rw [written]
      exact .inr spells

theorem spells_writeItems (items : List Json) (index : Nat) (nonempty : items ≠ [])
    (texted : RealsItems RealText items) :
    ∃ word, writeItems index items = (if 0 < index then [','] else []) ++ word ∧
      SpellsItems (mapItems readText items) word := by
  cases items with
  | nil => exact absurd rfl nonempty
  | cons item items =>
    refine ⟨writeInto item ++ writeItems (index + 1) items, by simp [writeItems], ?_⟩
    refine ⟨[], writeInto item, [], writeItems (index + 1) items, by simp, Ws.nil, Ws.nil,
      spells_write item texted.1, ?_⟩
    by_cases empty : items = []
    · subst empty
      exact .inl ⟨rfl, rfl⟩
    · obtain ⟨word, written, spells⟩ := spells_writeItems items (index + 1) empty texted.2
      exact .inr ⟨word, written, spells⟩

theorem spells_writeMembers (members : List (String × Json)) (index : Nat) (nonempty : members ≠ [])
    (texted : RealsMembers RealText members) :
    ∃ word, writeMembers index members = (if 0 < index then [','] else []) ++ word ∧
      SpellsMembers (mapMembers readText members) word := by
  cases members with
  | nil => exact absurd rfl nonempty
  | cons member members =>
    obtain ⟨key, value⟩ := member
    refine ⟨writeString key ++ ':' :: writeInto value ++ writeMembers (index + 1) members,
      by simp [writeMembers], ?_⟩
    refine ⟨[], writeString key, [], [], writeInto value, [], writeMembers (index + 1) members,
      by simp, Ws.nil, spellsString_write key, Ws.nil, Ws.nil, Ws.nil,
      spells_write value texted.1, ?_⟩
    by_cases empty : members = []
    · subst empty
      exact .inl ⟨rfl, rfl⟩
    · obtain ⟨word, written, spells⟩ := spells_writeMembers members (index + 1) empty texted.2
      exact .inr ⟨word, written, spells⟩

end

end InlaySql.Json
