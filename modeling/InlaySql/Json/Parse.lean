import InlaySql.Json.Grammar
import InlaySql.Lib.Utf8

/-!
# The parser

A recursive descent over byte positions. A read past the end answers nothing; a slice of the
text panics when no character begins at its ends. The recursion is given a number of turns,
which the text bounds.
-/

namespace InlaySql.Json

open Sql Lib.Utf8

/-- How a parse ends without a value. -/
inductive Halt where
  | parseError
  | panic
  | exhausted
  deriving DecidableEq, Repr

def isWsByte (b : UInt8) : Bool := b == byte ' ' || b == byte '\t' || b == byte '\n' || b == byte '\r'

def isDigitByte (b : UInt8) : Bool := byte '0' ≤ b && b ≤ byte '9'

section

variable (text : List Char)

/-- `bytes.get(pos)`. -/
def peek (pos : Nat) : Option UInt8 := (encode text)[pos]?

def skipWs (pos : Nat) : Nat := skipWhile isWsByte (encode text) pos

def skipDigits (pos : Nat) : Nat := skipWhile isDigitByte (encode text) pos

def literal (pos : Nat) (word : List Char) (value : Json) : Except Halt (Json × Nat) :=
  let stop := pos + (encode word).length
  if ((encode text).drop pos).take (encode word).length = encode word then .ok (value, stop)
  else .error .parseError

/-! ## Numbers -/

/-- The sign and the digits before the point. -/
def scanInteger (start : Nat) : Except Halt Nat :=
  let pos := if peek text start = some (byte '-') then start + 1 else start
  match peek text pos with
  | some b =>
    if b = byte '0' then .ok (pos + 1)
    else if byte '1' ≤ b ∧ b ≤ byte '9' then .ok (skipDigits text pos)
    else .error .parseError
  | none => .error .parseError

/-- Digits, of which there is one at least. -/
def scanDigits (pos : Nat) : Except Halt Nat :=
  if skipDigits text pos = pos then .error .parseError else .ok (skipDigits text pos)

def scanFraction (pos : Nat) : Except Halt Nat :=
  if peek text pos = some (byte '.') then scanDigits text (pos + 1) else .ok pos

def scanExponent (pos : Nat) : Except Halt Nat :=
  if peek text pos = some (byte 'e') ∨ peek text pos = some (byte 'E') then
    let p := pos + 1
    scanDigits text (if peek text p = some (byte '+') ∨ peek text p = some (byte '-') then p + 1 else p)
  else .ok pos

/-- The value of a number: an integer when it reads as one. -/
def numberOf (span : List Char) : Json :=
  match readI64 span with
  | some value => .int value
  | none => .real (readF64 span) (String.ofList span)

def parseNumber (start : Nat) : Except Halt (Json × Nat) := do
  let pos <- scanInteger text start
  let pos <- scanFraction text pos
  let pos <- scanExponent text pos
  match sliceAt text start pos with
  | none => .error .panic
  | some span => .ok (numberOf span, pos)

/-! ## Strings -/

/-- A byte read as a character. -/
def charOf (b : UInt8) : Char := Char.ofNat b.toNat

def hex4 (pos : Nat) : Except Halt Nat :=
  let digits := ((encode text).drop pos).take 4
  if digits.length = 4 then
    match digits.mapM fun b => hexDigit (charOf b) with
    | some values => .ok (values.foldl (fun value digit => value * 16 + digit) 0)
    | none => .error .parseError
  else .error .parseError

/-- `char::from_u32`. -/
def fromU32 (code : Nat) : Except Halt Char :=
  if code.isValidChar then .ok (Char.ofNat code) else .error .parseError

/-- A `\u` escape, from the `u` on, with the position of its last byte. -/
def parseUnicode (pos : Nat) : Except Halt (Char × Nat) := do
  let cp <- hex4 text (pos + 1)
  let pos := pos + 4
  if IsHigh cp then
    if peek text (pos + 1) = some (byte '\\') ∧ peek text (pos + 2) = some (byte 'u') then
      let low <- hex4 text (pos + 3)
      let pos := pos + 6
      if IsLow low then
        let c <- fromU32 (combined cp low)
        .ok (c, pos)
      else .error .parseError
    else .error .parseError
  else
    let c <- fromU32 cp
    .ok (c, pos)

/-- What follows a backslash, with the position of its last byte. -/
def parseEscape (pos : Nat) : Except Halt (Char × Nat) :=
  match peek text pos with
  | none => .error .parseError
  | some b =>
    match shortEscape (charOf b) with
    | some c => .ok (c, pos)
    | none => if b = byte 'u' then parseUnicode text pos else .error .parseError

/-- The loop of `parse_string`. -/
def parseQuoted : Nat -> Nat -> List Char -> Except Halt (List Char × Nat)
  | 0, _, _ => .error .exhausted
  | turns + 1, pos, out =>
    match peek text pos with
    | none => .error .parseError
    | some b =>
      if b = byte '"' then .ok (out, pos + 1)
      else if b = byte '\\' then do
        let (c, pos) <- parseEscape text (pos + 1)
        parseQuoted turns (pos + 1) (out ++ [c])
      else if b.toNat < 0x20 then .error .parseError
      else
        match suffixAt text pos with
        | none => .error .panic
        | some [] => .error .parseError
        | some (c :: _) => parseQuoted turns (pos + c.utf8Size) (out ++ [c])

def parseString (start : Nat) : Except Halt (List Char × Nat) :=
  parseQuoted text ((encode text).length + 1) (start + 1) []

/-! ## Values -/

mutual

def parseValue : Nat -> Nat -> Except Halt (Json × Nat)
  | 0, _ => .error .exhausted
  | turns + 1, pos =>
    let pos := skipWs text pos
    match peek text pos with
    | none => .error .parseError
    | some b =>
      if b = byte '{' then parseObject turns pos
      else if b = byte '[' then parseArray turns pos
      else if b = byte '"' then do
        let (s, next) <- parseString text pos
        .ok (.text (String.ofList s), next)
      else if b = byte 't' then literal text pos "true".toList (.bool true)
      else if b = byte 'f' then literal text pos "false".toList (.bool false)
      else if b = byte 'n' then literal text pos "null".toList .null
      else if b = byte '-' ∨ (byte '0' ≤ b ∧ b ≤ byte '9') then parseNumber text pos
      else .error .parseError

def parseArray : Nat -> Nat -> Except Halt (Json × Nat)
  | 0, _ => .error .exhausted
  | turns + 1, start =>
    let pos := skipWs text (start + 1)
    if peek text pos = some (byte ']') then .ok (.array [], pos + 1)
    else parseItems turns pos []

/-- The loop of `parse_array`. -/
def parseItems : Nat -> Nat -> List Json -> Except Halt (Json × Nat)
  | 0, _, _ => .error .exhausted
  | turns + 1, pos, items => do
      let (value, next) <- parseValue turns pos
      let pos := skipWs text next
      if peek text pos = some (byte ',') then
        parseItems turns (skipWs text (pos + 1)) (items ++ [value])
      else if peek text pos = some (byte ']') then .ok (.array (items ++ [value]), pos + 1)
      else .error .parseError

def parseObject : Nat -> Nat -> Except Halt (Json × Nat)
  | 0, _ => .error .exhausted
  | turns + 1, start =>
    let pos := skipWs text (start + 1)
    if peek text pos = some (byte '}') then .ok (.object [], pos + 1)
    else parseMembers turns pos []

/-- The loop of `parse_object`. -/
def parseMembers : Nat -> Nat -> List (String × Json) -> Except Halt (Json × Nat)
  | 0, _, _ => .error .exhausted
  | turns + 1, pos, members =>
    if peek text pos = some (byte '"') then do
      let (key, next) <- parseString text pos
      let pos := skipWs text next
      if peek text pos = some (byte ':') then
        let pos := skipWs text (pos + 1)
        let (value, next) <- parseValue turns pos
        let members := members ++ [(String.ofList key, value)]
        let pos := skipWs text next
        if peek text pos = some (byte ',') then
          parseMembers turns (skipWs text (pos + 1)) members
        else if peek text pos = some (byte '}') then .ok (.object members, pos + 1)
        else .error .parseError
      else .error .parseError
    else .error .parseError

end

end

def parse (text : String) : Except Halt Json := do
  let chars := text.toList
  let pos := skipWs chars 0
  let (value, next) <- parseValue chars (3 * chars.length + 1) pos
  if skipWs chars next ≠ (encode chars).length then .error .parseError else .ok value

end InlaySql.Json
