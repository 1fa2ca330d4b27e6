import InlaySql.Json.Document

/-!
# The grammar

The texts of a document: whitespace, numbers, strings with their escapes, and what spells a
value. `Spells` follows the value, so that a value is its own derivation. A number is an
integer when its text reads as an `i64`, and the double of any other is the nearest one.
-/

namespace InlaySql.Json

open Sql

/-! ## Whitespace and digits -/

def isWs (c : Char) : Bool := c == ' ' || c == '\t' || c == '\n' || c == '\r'

def Ws (text : List Char) : Prop := ∀ c ∈ text, isWs c = true

theorem Ws.nil : Ws [] := by simp [Ws]

theorem Ws.append {front later : List Char} (isFront : Ws front) (isLater : Ws later) :
    Ws (front ++ later) := by
  intro c inside
  rcases List.mem_append.mp inside with inside | inside
  · exact isFront c inside
  · exact isLater c inside

def isDigit (c : Char) : Bool := '0' ≤ c && c ≤ '9'

def Digits (text : List Char) : Prop := text ≠ [] ∧ ∀ c ∈ text, isDigit c = true

/-! ## Numbers -/

/-- `frac` of the grammar, which may be left out. -/
def Fraction (text : List Char) : Prop := text = [] ∨ ∃ digits, text = '.' :: digits ∧ Digits digits

def Sign (text : List Char) : Prop := text = [] ∨ text = ['+'] ∨ text = ['-']

/-- `exp` of the grammar, which may be left out. -/
def Exponent (text : List Char) : Prop :=
  text = [] ∨ ∃ e sign digits, text = e :: sign ++ digits ∧ (e = 'e' ∨ e = 'E') ∧ Sign sign ∧
    Digits digits

/-- `int` of the grammar: no leading zeros. -/
def Integral (text : List Char) : Prop :=
  text = ['0'] ∨ ∃ first digits, text = first :: digits ∧ isDigit first = true ∧ first ≠ '0' ∧
    ∀ c ∈ digits, isDigit c = true

/-- `number` of the grammar. -/
def Number (text : List Char) : Prop :=
  ∃ minus whole fraction exponent, text = minus ++ whole ++ fraction ++ exponent ∧
    (minus = [] ∨ minus = ['-']) ∧ Integral whole ∧ Fraction fraction ∧ Exponent exponent

def digitValue (c : Char) : Nat := c.toNat - '0'.toNat

/-- The number a run of digits stands for. -/
def natOf (digits : List Char) : Nat := digits.foldl (fun value c => value * 10 + digitValue c) 0

/-- The value in the range of an `i64`, if it is. -/
def toI64? (value : Int) : Option Int64 :=
  if -2 ^ 63 ≤ value ∧ value < 2 ^ 63 then some (Int64.ofInt value) else none

/-- `str::parse::<i64>`. -/
def readI64 (text : List Char) : Option Int64 :=
  let (negative, digits) := match text with
    | '-' :: digits => (true, digits)
    | '+' :: digits => (false, digits)
    | digits => (false, digits)
  if digits ≠ [] ∧ digits.all isDigit then
    toI64? (if negative then -(natOf digits : Int) else natOf digits)
  else none

/-- A quotient rounded to the nearest integer, ties to even. -/
def roundRatio (p q : Nat) : Nat :=
  let quotient := p / q
  let rest := p % q
  if q < 2 * rest ∨ (2 * rest = q ∧ quotient % 2 = 1) then quotient + 1 else quotient

/-- The ratio in units of a power of two. -/
def scaled (p q : Nat) (power : Int) : Nat × Nat :=
  if 0 ≤ power then (p, q * 2 ^ power.toNat) else (p * 2 ^ (-power).toNat, q)

/-- The bits of the double nearest to a ratio: the unit is the one that leaves 53 bits, or
the smallest there is, and a significand that rounds up carries into the exponent. -/
def ratioBits (p q : Nat) : Nat :=
  if p = 0 then 0
  else
    let estimate : Int := (Nat.log2 p : Int) - Nat.log2 q - 53
    let ratio := scaled p q (estimate + 1)
    let unit := max (-1074) (if ratio.1 < ratio.2 * 2 ^ 52 then estimate else estimate + 1)
    let ratio := scaled p q unit
    min ((unit + 1074).toNat * 2 ^ 52 + roundRatio ratio.1 ratio.2) 0x7ff0000000000000

/-- `str::parse::<f64>` of a number of the grammar. -/
def readF64 (text : List Char) : F64 :=
  let (negative, text) := match text with
    | '-' :: rest => (true, rest)
    | rest => (false, rest)
  let whole := text.takeWhile isDigit
  let text := text.dropWhile isDigit
  let (fraction, text) := match text with
    | '.' :: rest => (rest.takeWhile isDigit, rest.dropWhile isDigit)
    | rest => ([], rest)
  let (below, power) := match text.drop 1 with
    | '-' :: digits => (true, natOf digits)
    | '+' :: digits => (false, natOf digits)
    | digits => (false, natOf digits)
  let exponent : Int := (if below then -(power : Int) else power) - fraction.length
  let digits := natOf (whole ++ fraction)
  let bits := if 0 ≤ exponent then ratioBits (digits * 10 ^ exponent.toNat) 1
    else ratioBits digits (10 ^ (-exponent).toNat)
  ⟨if negative then bits.toUInt64 ||| F64.signBit else bits.toUInt64⟩

/-! ## Strings -/

/-- The characters with an escape of their own. -/
def shortEscape (c : Char) : Option Char :=
  if c = '"' then some '"'
  else if c = '\\' then some '\\'
  else if c = '/' then some '/'
  else if c = 'b' then some (Char.ofNat 8)
  else if c = 'f' then some (Char.ofNat 12)
  else if c = 'n' then some '\n'
  else if c = 'r' then some '\r'
  else if c = 't' then some '\t'
  else none

def hexDigit (c : Char) : Option Nat :=
  if '0' ≤ c ∧ c ≤ '9' then some (c.toNat - '0'.toNat)
  else if 'a' ≤ c ∧ c ≤ 'f' then some (c.toNat - 'a'.toNat + 10)
  else if 'A' ≤ c ∧ c ≤ 'F' then some (c.toNat - 'A'.toNat + 10)
  else none

/-- Four hexadecimal digits. -/
def codeUnit (digits : List Char) : Option Nat := do
  if digits.length = 4 then
    let values <- digits.mapM hexDigit
    some (values.foldl (fun value digit => value * 16 + digit) 0)
  else none

def IsHigh (code : Nat) : Prop := 0xD800 ≤ code ∧ code ≤ 0xDBFF

def IsLow (code : Nat) : Prop := 0xDC00 ≤ code ∧ code ≤ 0xDFFF

instance (code : Nat) : Decidable (IsHigh code) := inferInstanceAs (Decidable (_ ∧ _))

instance (code : Nat) : Decidable (IsLow code) := inferInstanceAs (Decidable (_ ∧ _))

/-- The code point of a surrogate pair. -/
def combined (high low : Nat) : Nat := 0x10000 + (high - 0xD800) * 0x400 + (low - 0xDC00)

/-- A character that stands for itself between quotes. -/
def Unescaped (c : Char) : Prop := 0x20 ≤ c.toNat ∧ c ≠ '"' ∧ c ≠ '\\'

/-- What stands between two quotes, and the characters it stands for. -/
inductive Quoted : List Char -> List Char -> Prop where
  | nil : Quoted [] []
  | plain {c text chars} (unescaped : Unescaped c) (later : Quoted text chars) :
      Quoted (c :: text) (c :: chars)
  | short {escape c text chars} (escapes : shortEscape escape = some c)
      (later : Quoted text chars) : Quoted ('\\' :: escape :: text) (c :: chars)
  | unicode {digits code text chars} (unit : codeUnit digits = some code)
      (notHigh : ¬ IsHigh code) (notLow : ¬ IsLow code) (later : Quoted text chars) :
      Quoted ('\\' :: 'u' :: digits ++ text) (Char.ofNat code :: chars)
  | pair {digits high digits' low text chars} (unit : codeUnit digits = some high)
      (isHigh : IsHigh high) (unit' : codeUnit digits' = some low) (isLow : IsLow low)
      (later : Quoted text chars) :
      Quoted ('\\' :: 'u' :: digits ++ '\\' :: 'u' :: digits' ++ text)
        (Char.ofNat (combined high low) :: chars)

/-- `string` of the grammar. -/
def SpellsString (value : String) (text : List Char) : Prop :=
  ∃ quoted, text = '"' :: quoted ++ ['"'] ∧ Quoted quoted value.toList

/-! ## Values -/

mutual

/-- The texts of a value, without whitespace around them. -/
def Spells : Json -> List Char -> Prop
  | .null, word => word = "null".toList
  | .bool true, word => word = "true".toList
  | .bool false, word => word = "false".toList
  | .int value, word => Number word ∧ readI64 word = some value
  | .real value written, word =>
    Number word ∧ readI64 word = none ∧ value = readF64 word ∧ written.toList = word
  | .text value, word => SpellsString value word
  | .array items, word => ∃ inner, word = '[' :: inner ++ [']'] ∧
      ((items = [] ∧ Ws inner) ∨ SpellsItems items inner)
  | .object members, word => ∃ inner, word = '{' :: inner ++ ['}'] ∧
      ((members = [] ∧ Ws inner) ∨ SpellsMembers members inner)

/-- The elements of an array, with commas between them and whitespace around them. -/
def SpellsItems : List Json -> List Char -> Prop
  | [], _ => False
  | item :: items, word => ∃ before spelled after rest,
      word = before ++ spelled ++ after ++ rest ∧ Ws before ∧ Ws after ∧ Spells item spelled ∧
        ((items = [] ∧ rest = []) ∨ ∃ more, rest = ',' :: more ∧ SpellsItems items more)

/-- The members of an object, likewise. -/
def SpellsMembers : List (String × Json) -> List Char -> Prop
  | [], _ => False
  | (key, value) :: members, word => ∃ before name beforeColon afterColon spelled after rest,
      word = before ++ name ++ beforeColon ++ ':' :: afterColon ++ spelled ++ after ++ rest ∧
        Ws before ∧ SpellsString key name ∧ Ws beforeColon ∧ Ws afterColon ∧ Ws after ∧
        Spells value spelled ∧
        ((members = [] ∧ rest = []) ∨ ∃ more, rest = ',' :: more ∧ SpellsMembers members more)

end

/-- A JSON text: one value with whitespace around it. -/
def SpellsText (value : Json) (word : List Char) : Prop :=
  ∃ before spelled after, word = before ++ spelled ++ after ∧ Ws before ∧ Ws after ∧
    Spells value spelled

end InlaySql.Json
