import InlaySql.Sql.Join

/-!
# Numbers read out of text

The numeric prefix of a text, what a double is as a 64-bit integer, and the value a text
becomes under `NUMERIC` affinity. How the digits of a double are read and written is the
host's.
-/

namespace InlaySql.Eval

open Lib Sql

/-- What the standard library reads and writes: `str::parse::<f64>`, the decimal
rendering of a double, and `String::from_utf8_lossy`. -/
structure Host where
  parseReal : String -> Option F64
  realToText : F64 -> String
  fromUtf8Lossy : Bytes -> String

/-! ## Doubles as integers -/

def isFinite (real : F64) : Bool := real.magnitude < 0x7ff0000000000000

/-- `integer_affinity`: an integer when the conversion is exact and strictly inside the
64-bit range. -/
def integerAffinity (real : F64) : Value :=
  let integer := real.toI64
  if isFinite real && (F64.ofInt integer).eq real && decide (-2 ^ 63 < integer) &&
      decide (integer < 2 ^ 63 - 1) then .integer integer
  else .real real

/-! ## Scanning -/

def isAsciiWhitespace (c : Char) : Bool :=
  c == ' ' || c == '\t' || c == '\n' || c == '\x0c' || c == '\r'

/-- `char::is_whitespace`, the Unicode property. -/
def isWhitespace (c : Char) : Bool :=
  let code := c.toNat
  (9 ≤ code && code ≤ 13) || code == 0x20 || code == 0x85 || code == 0xa0 || code == 0x1680 ||
    (0x2000 ≤ code && code ≤ 0x200a) || code == 0x2028 || code == 0x2029 || code == 0x202f ||
    code == 0x205f || code == 0x3000

/-- A sign, if the text starts with one, and the rest. -/
def takeSign : List Char -> List Char × List Char
  | '+' :: rest => (['+'], rest)
  | '-' :: rest => (['-'], rest)
  | rest => ([], rest)

/-- The digits the text starts with, and the rest. -/
def takeDigits (text : List Char) : List Char × List Char :=
  (text.takeWhile Char.isDigit, text.dropWhile Char.isDigit)

/-- The decimal point and the digits after it, where `digits` came before: the point
counts only beside a digit. -/
def takeFraction (digits : List Char) : List Char -> List Char × List Char
  | '.' :: rest =>
    let (fraction, after) := takeDigits rest
    if digits ≠ [] ∨ fraction ≠ [] then ('.' :: fraction, after) else ([], '.' :: rest)
  | rest => ([], rest)

/-- The exponent, which counts only with a digit in it. -/
def takeExponent : List Char -> List Char × List Char
  | mark :: rest =>
    let (sign, unsigned) := takeSign rest
    let (digits, after) := takeDigits unsigned
    if (mark = 'e' ∨ mark = 'E') ∧ digits ≠ [] then (mark :: (sign ++ digits), after)
    else ([], mark :: rest)
  | [] => ([], [])

/-- `scan_number`: the numeric prefix, whether it looks like a float, and the rest. -/
def scanNumber (text : List Char) : Option (List Char × Bool × List Char) :=
  let (sign, unsigned) := takeSign (text.dropWhile isAsciiWhitespace)
  let (digits, rest) := takeDigits unsigned
  let (fraction, rest) := takeFraction digits rest
  -- A lone point is no fraction, so the digits are those before or after the point.
  if digits = [] ∧ fraction.length ≤ 1 then none
  else
    let (exponent, rest) := takeExponent rest
    some (sign ++ digits ++ fraction ++ exponent, fraction ≠ [] || exponent ≠ [], rest)

/-- `whole_number`: the prefix, when only whitespace follows it. -/
def wholeNumber (text : List Char) : Option (List Char) :=
  match scanNumber text with
  | some (number, _, rest) => if rest.all isWhitespace then some number else none
  | none => none

/-- `prefix.parse::<i64>()`. -/
def parseInteger (text : List Char) : Option Int :=
  let (sign, digits) := takeSign text
  let magnitude : Nat := digits.foldl (fun value digit => 10 * value + (digit.toNat - 48)) 0
  let value : Int := if sign = ['-'] then -(magnitude : Int) else magnitude
  if digits ≠ [] ∧ digits.all Char.isDigit ∧ -2 ^ 63 ≤ value ∧ value < 2 ^ 63 then some value
  else none

namespace Host

variable (host : Host)

/-- `text_to_real`: the longest numeric prefix, or zero. -/
def textToReal (text : String) : F64 :=
  match scanNumber text.toList with
  | some (number, _, _) => (host.parseReal (String.ofList number)).getD ⟨0⟩
  | none => ⟨0⟩

def numericAffinityOfText (text : String) : Option Value :=
  match wholeNumber text.toList with
  | none => none
  | some number =>
    match host.parseReal (String.ofList number) with
    | none => none
    | some real =>
      let narrow := real.toI64
      if real.eq (F64.ofInt narrow) && decide (-2 ^ 51 ≤ narrow) && decide (narrow < 2 ^ 51) then
        some (.integer narrow)
      else
        match parseInteger number with
        | some integer => some (.integer integer)
        | none => some (integerAffinity real)

/-- The reading and writing of numbers that comparisons and truth rest on. -/
def numerals : Numerals where
  numericAffinityOfText := host.numericAffinityOfText
  realToText := host.realToText
  textToReal := host.textToReal
  fromUtf8Lossy := host.fromUtf8Lossy

theorem numericAffinityOfText_number {text : String} {value : Value}
    (converted : host.numericAffinityOfText text = some value) :
    (∃ integer, value = .integer integer) ∨ ∃ real, value = .real real := by
  unfold numericAffinityOfText at converted
  split at converted
  · cases converted
  · split at converted
    · cases converted
    · rename_i real _
      dsimp only at converted
      split at converted
      · exact .inl ⟨_, (Option.some.inj converted).symm⟩
      · split at converted
        · exact .inl ⟨_, (Option.some.inj converted).symm⟩
        · obtain rfl := Option.some.inj converted
          unfold integerAffinity
          dsimp only
          split
          · exact .inl ⟨_, rfl⟩
          · exact .inr ⟨_, rfl⟩

theorem affinityConversion_isNull {value converted : Value} {affinity : CompareAffinity}
    (isConverted : host.numerals.affinityConversion value affinity = some converted) :
    converted.isNull = false := by
  cases affinity with
  | none => cases isConverted
  | numeric =>
    cases value with
    | text text =>
      obtain ⟨integer, rfl⟩ | ⟨real, rfl⟩ := host.numericAffinityOfText_number isConverted
      · rfl
      · rfl
    | null | integer | real | blob | vector => cases isConverted
  | text =>
    cases value with
    | integer integer => cases isConverted; rfl
    | real real => cases isConverted; rfl
    | null | text | blob | vector => cases isConverted

end Host

end InlaySql.Eval
