import InlaySql.Json.Parse

/-!
# Reading the parts

Every part of the parser either refuses or stops where the suffix that is left begins, after
a text of the grammar; and it does stop where such a text ends, when what follows a number
cannot go on with it.
-/

namespace InlaySql.Json

open List Sql Lib.Utf8

/-- A part of the parser refuses, or reads a text at the front of the suffix. -/
inductive Reads {α : Type} (text : List Char) (good : α -> List Char -> Prop) (rest : List Char) :
    Except Halt (α × Nat) -> Prop where
  | refused : Reads text good rest (.error .parseError)
  | read {value s later pos} (split : rest = s ++ later) (spells : good value s)
      (there : At text later pos) : Reads text good rest (.ok (value, pos))

/-- A scan refuses, or passes a text at the front of the suffix. -/
inductive Scans (text : List Char) (good : List Char -> Prop) (rest : List Char) :
    Except Halt Nat -> Prop where
  | refused : Scans text good rest (.error .parseError)
  | passed {s later pos} (split : rest = s ++ later) (spells : good s)
      (there : At text later pos) : Scans text good rest (.ok pos)

/-! ## Bytes and characters -/

variable {text rest : List Char} {pos : Nat}

theorem isWsByte_lead (c : Char) : isWsByte (lead c) = isWs c := by
  have compare {d : Char} (ascii : d.toNat < 128) : (lead c == byte d) = (c == d) := by
    rw [Bool.eq_iff_iff]
    simp [lead_eq_byte ascii]
  simp only [isWsByte, isWs, compare (d := ' ') (by decide), compare (d := '\t') (by decide),
    compare (d := '\n') (by decide), compare (d := '\r') (by decide)]

theorem isDigit_iff (c : Char) : isDigit c = true ↔ 48 ≤ c.toNat ∧ c.toNat ≤ 57 := by
  simp only [isDigit, Bool.and_eq_true, decide_eq_true_eq, Char.le_def, UInt32.le_iff_toNat_le]
  exact Iff.rfl

theorem isDigitByte_lead (c : Char) : isDigitByte (lead c) = isDigit c := by
  rw [Bool.eq_iff_iff, isDigit_iff]
  have low := lead_lt_iff (c := c) 48 (by decide)
  have high := lead_lt_iff (c := c) 58 (by decide)
  simp only [isDigitByte, Bool.and_eq_true, decide_eq_true_eq, UInt8.le_iff_toNat_le,
    toNat_byte (c := '0') (by decide), toNat_byte (c := '9') (by decide)]
  change 48 ≤ _ ∧ _ ≤ 57 ↔ _
  omega

variable {c : Char} {digits later : List Char}

theorem ascii_of_isWs (ws : isWs c = true) : c.toNat < 128 := by
  simp only [isWs, Bool.or_eq_true, beq_iff_eq] at ws
  rcases ws with ((rfl | rfl) | rfl) | rfl <;> decide

theorem ascii_of_isDigit (digit : isDigit c = true) : c.toNat < 128 := by
  have bounds := (isDigit_iff c).mp digit
  omega

theorem charOf_lead (c : Char) :
    (c.toNat < 128 ∧ charOf (lead c) = c) ∨ (128 ≤ c.toNat ∧ 128 ≤ (charOf (lead c)).toNat) := by
  obtain ⟨ascii, first, -⟩ | ⟨large, first⟩ := lead_cases c
  · refine .inl ⟨ascii, ?_⟩
    rw [charOf, first, Char.ofNat_toNat]
  · refine .inr ⟨large, ?_⟩
    have bounded : (lead c).toNat < 256 := (lead c).toNat_lt
    rw [charOf, Char.toNat_ofNat, if_pos (by simp only [Nat.isValidChar]; omega)]
    exact first

theorem peek_eq_byte (here : At text rest pos) (ascii : c.toNat < 128) :
    peek text pos = some (byte c) ↔ ∃ later, rest = c :: later :=
  here.getElem?_eq_byte ascii

theorem peek_nil (here : At text [] pos) : peek text pos = none := here.getElem?

theorem peek_cons (here : At text (c :: rest) pos) : peek text pos = some (lead c) :=
  here.getElem?

/-! ## Whitespace and digits -/

theorem skipWs_at (here : At text rest pos) : At text (rest.dropWhile isWs) (skipWs text pos) :=
  here.skip isWsByte_lead fun _ ws => ascii_of_isWs ws

theorem skipDigits_at (here : At text rest pos) :
    At text (rest.dropWhile isDigit) (skipDigits text pos) :=
  here.skip isDigitByte_lead fun _ digit => ascii_of_isDigit digit

theorem dropWhile_split (pass : Char -> Bool) (rest : List Char) :
    ∃ front, rest = front ++ rest.dropWhile pass ∧ ∀ c ∈ front, pass c = true :=
  ⟨rest.takeWhile pass, (takeWhile_append_dropWhile).symm, fun _ inside => mem_takeWhile_imp inside⟩

/-- The first character, if there is one, fails the test. -/
def Stops (pass : Char -> Bool) (rest : List Char) : Prop :=
  ∀ c later, rest = c :: later -> pass c = false

theorem dropWhile_append_stops {pass : Char -> Bool} {front : List Char}
    (passes : ∀ c ∈ front, pass c = true) (stops : Stops pass rest) :
    (front ++ rest).dropWhile pass = rest := by
  rw [dropWhile_append_of_pos passes]
  cases rest with
  | nil => rfl
  | cons c rest => simp [stops c rest rfl]

/-! ## Numbers -/

theorem scanDigits_scans (here : At text rest pos) :
    Scans text Digits rest (scanDigits text pos) := by
  obtain ⟨front, split, digits⟩ := dropWhile_split isDigit rest
  have there := skipDigits_at here
  unfold scanDigits
  split
  · exact .refused
  · rename_i moved
    refine .passed split ⟨?_, digits⟩ there
    rintro rfl
    rw [nil_append] at split
    rw [<- split] at there
    exact moved (there.unique here)

theorem scanDigits_stops (here : At text (digits ++ later) pos) (spelled : Digits digits)
    (stops : Stops isDigit later) :
    ∃ stop, scanDigits text pos = .ok stop ∧ At text later stop := by
  have there := skipDigits_at here
  rw [dropWhile_append_stops spelled.2 stops] at there
  refine ⟨_, if_neg ?_, there⟩
  intro unmoved
  rw [unmoved] at there
  have same := congrArg List.length (here.suffixAt.symm.trans there.suffixAt |> Option.some.inj)
  rw [length_append] at same
  exact spelled.1 (length_eq_zero_iff.mp (by omega))

theorem scanInteger_scans (here : At text rest pos) :
    Scans text (fun spelled => ∃ minus whole, spelled = minus ++ whole ∧
      (minus = [] ∨ minus = ['-']) ∧ Integral whole) rest (scanInteger text pos) := by
  obtain ⟨minus, after, start, split, sign, there, isStart⟩ : ∃ minus after start,
      rest = minus ++ after ∧ (minus = [] ∨ minus = ['-']) ∧ At text after start ∧
        start = if peek text pos = some (byte '-') then pos + 1 else pos := by
    by_cases negative : peek text pos = some (byte '-')
    · obtain ⟨after, rfl⟩ := (peek_eq_byte here (by decide)).mp negative
      exact ⟨['-'], after, pos + 1, rfl, .inr rfl, here.step (by decide), by rw [if_pos negative]⟩
    · exact ⟨[], rest, pos, rfl, .inl rfl, here, by rw [if_neg negative]⟩
  subst split
  simp only [scanInteger, <- isStart]
  cases after with
  | nil =>
    rw [peek_nil there]
    exact .refused
  | cons c after =>
    rw [peek_cons there]
    simp only [lead_eq_byte (d := '0') (by decide)]
    split
    · rename_i zero
      subst zero
      exact .passed (s := minus ++ ['0']) (by simp) ⟨minus, ['0'], rfl, sign, .inl rfl⟩
        (there.step (by decide))
    · rename_i nonzero
      split
      · rename_i bounds
        have low := lead_lt_iff (c := c) 49 (by decide)
        have high := lead_lt_iff (c := c) 58 (by decide)
        have digit : isDigit c = true := by
          rw [isDigit_iff]
          rw [UInt8.le_iff_toNat_le, UInt8.le_iff_toNat_le, toNat_byte (by decide),
            toNat_byte (by decide)] at bounds
          change 49 ≤ _ ∧ _ ≤ 57 at bounds
          omega
        obtain ⟨front, split, digits⟩ := dropWhile_split isDigit after
        have stop := skipDigits_at there
        rw [dropWhile_cons_of_pos digit] at stop
        refine .passed (s := minus ++ c :: front) ?_
          ⟨minus, c :: front, rfl, sign, .inr ⟨c, front, rfl, digit, nonzero, digits⟩⟩ stop
        rw [append_assoc, cons_append, <- split]
      · exact .refused

theorem scanInteger_stops {minus whole : List Char} (here : At text (minus ++ whole ++ later) pos)
    (sign : minus = [] ∨ minus = ['-']) (integral : Integral whole) (stops : Stops isDigit later) :
    ∃ stop, scanInteger text pos = .ok stop ∧ At text later stop := by
  have first : ∃ c digits, whole = c :: digits ∧ isDigit c = true ∧
      (c = '0' -> digits = []) ∧ ∀ d ∈ digits, isDigit d = true := by
    obtain rfl | ⟨c, digits, rfl, digit, nonzero, all⟩ := integral
    · exact ⟨'0', [], rfl, rfl, fun _ => rfl, by simp⟩
    · exact ⟨c, digits, rfl, digit, fun zero => absurd zero nonzero, all⟩
  obtain ⟨c, digits, rfl, digit, lone, all⟩ := first
  obtain ⟨start, there, isStart⟩ : ∃ start, At text (c :: digits ++ later) start ∧
      start = if peek text pos = some (byte '-') then pos + 1 else pos := by
    obtain rfl | rfl := sign
    · refine ⟨pos, here, ?_⟩
      rw [if_neg]
      rw [peek_eq_byte here (by decide)]
      rintro ⟨_, same⟩
      obtain rfl : c = '-' := by simpa using congrArg List.head? same
      exact absurd digit (by decide)
    · refine ⟨pos + 1, here.step (by decide), ?_⟩
      rw [if_pos ((peek_eq_byte here (by decide)).mpr ⟨_, rfl⟩)]
  simp only [scanInteger, <- isStart, peek_cons there, lead_eq_byte (d := '0') (by decide)]
  by_cases zero : c = '0'
  · subst zero
    obtain rfl := lone rfl
    exact ⟨_, if_pos rfl, there.step (by decide)⟩
  · rw [if_neg zero, if_pos]
    · have stop := skipDigits_at there
      rw [cons_append, dropWhile_cons_of_pos digit, dropWhile_append_stops all stops] at stop
      exact ⟨_, rfl, stop⟩
    · have low := lead_lt_iff (c := c) 49 (by decide)
      have high := lead_lt_iff (c := c) 58 (by decide)
      have bounds := (isDigit_iff c).mp digit
      have notZero : c.toNat ≠ 48 := fun same => zero (Char.ext (UInt32.toNat_inj.mp same))
      rw [UInt8.le_iff_toNat_le, UInt8.le_iff_toNat_le, toNat_byte (by decide), toNat_byte (by decide)]
      change 49 ≤ _ ∧ _ ≤ 57
      omega

theorem scanFraction_scans (here : At text rest pos) :
    Scans text Fraction rest (scanFraction text pos) := by
  unfold scanFraction
  split
  · rename_i point
    obtain ⟨after, rfl⟩ := (peek_eq_byte here (by decide)).mp point
    have scanned := scanDigits_scans (here.step (by decide))
    cases result : scanDigits text (pos + 1) with
    | error halt =>
      rw [result] at scanned
      cases scanned
      exact .refused
    | ok stop =>
      rw [result] at scanned
      cases scanned with
      | passed split spelled there =>
        exact .passed (by rw [split, cons_append]) (.inr ⟨_, rfl, spelled⟩) there
  · exact .passed (s := []) rfl (.inl rfl) here

theorem scanFraction_stops {fraction : List Char} (here : At text (fraction ++ later) pos)
    (spelled : Fraction fraction) (stops : Stops isDigit later)
    (noPoint : ∀ after, later ≠ '.' :: after) :
    ∃ stop, scanFraction text pos = .ok stop ∧ At text later stop := by
  obtain rfl | ⟨digits, rfl, all⟩ := spelled
  · refine ⟨pos, if_neg ?_, here⟩
    rw [peek_eq_byte here (by decide)]
    rintro ⟨after, point⟩
    exact noPoint after point
  · obtain ⟨stop, scanned, there⟩ := scanDigits_stops (here.step (by decide)) all stops
    refine ⟨stop, ?_, there⟩
    rw [scanFraction, if_pos ((peek_eq_byte here (by decide)).mpr ⟨_, rfl⟩), scanned]

theorem sign_scans (here : At text rest pos) :
    Scans text Sign rest (.ok (if peek text pos = some (byte '+') ∨ peek text pos = some (byte '-')
      then pos + 1 else pos)) := by
  split
  · rename_i signed
    obtain plus | minus := signed
    · obtain ⟨after, rfl⟩ := (peek_eq_byte here (by decide)).mp plus
      exact .passed (s := ['+']) rfl (.inr (.inl rfl)) (here.step (by decide))
    · obtain ⟨after, rfl⟩ := (peek_eq_byte here (by decide)).mp minus
      exact .passed (s := ['-']) rfl (.inr (.inr rfl)) (here.step (by decide))
  · exact .passed (s := []) rfl (.inl rfl) here

theorem sign_stops {sign : List Char} (here : At text (sign ++ digits) pos) (spelled : Sign sign)
    (digit : ∃ c later, digits = c :: later ∧ isDigit c = true) :
    At text digits (if peek text pos = some (byte '+') ∨ peek text pos = some (byte '-')
      then pos + 1 else pos) := by
  obtain ⟨c, later, rfl, isDigit⟩ := digit
  obtain rfl | rfl | rfl := spelled
  · rw [if_neg]
    · exact here
    · rw [peek_eq_byte here (by decide), peek_eq_byte here (by decide)]
      rintro (⟨_, same⟩ | ⟨_, same⟩) <;> cases same <;> exact absurd isDigit (by decide)
  · rw [if_pos (.inl ((peek_eq_byte here (by decide)).mpr ⟨_, rfl⟩))]
    exact here.step (by decide)
  · rw [if_pos (.inr ((peek_eq_byte here (by decide)).mpr ⟨_, rfl⟩))]
    exact here.step (by decide)

theorem scanExponent_scans (here : At text rest pos) :
    Scans text Exponent rest (scanExponent text pos) := by
  unfold scanExponent
  split
  · rename_i marked
    obtain ⟨e, after, rfl, mark, ascii⟩ : ∃ e after, rest = e :: after ∧ (e = 'e' ∨ e = 'E') ∧
        e.toNat < 128 := by
      obtain lower | upper := marked
      · obtain ⟨after, rfl⟩ := (peek_eq_byte here (by decide)).mp lower
        exact ⟨'e', after, rfl, .inl rfl, by decide⟩
      · obtain ⟨after, rfl⟩ := (peek_eq_byte here (by decide)).mp upper
        exact ⟨'E', after, rfl, .inr rfl, by decide⟩
    have signed := sign_scans (here.step ascii)
    dsimp only
    generalize (if peek text (pos + 1) = some (byte '+') ∨ peek text (pos + 1) = some (byte '-')
      then pos + 1 + 1 else pos + 1) = start at signed
    cases signed with
    | @passed sign digits _ signSplit sign there =>
      have scanned := scanDigits_scans there
      cases result : scanDigits text start with
      | error halt =>
        rw [result] at scanned
        cases scanned
        exact .refused
      | ok stop =>
        rw [result] at scanned
        cases scanned with
        | passed split spelled final =>
          subst signSplit split
          exact .passed (by simp) (.inr ⟨e, _, _, rfl, mark, sign, spelled⟩) final
  · exact .passed (s := []) rfl (.inl rfl) here

theorem scanExponent_stops {exponent : List Char} (here : At text (exponent ++ later) pos)
    (spelled : Exponent exponent) (stops : Stops isDigit later)
    (noMark : ∀ e after, later = e :: after -> ¬ (e = 'e' ∨ e = 'E')) :
    ∃ stop, scanExponent text pos = .ok stop ∧ At text later stop := by
  obtain rfl | ⟨e, sign, digits, rfl, mark, isSign, all⟩ := spelled
  · refine ⟨pos, if_neg ?_, here⟩
    rw [peek_eq_byte here (by decide), peek_eq_byte here (by decide)]
    rintro (⟨after, same⟩ | ⟨after, same⟩)
    · exact noMark _ _ same (.inl rfl)
    · exact noMark _ _ same (.inr rfl)
  · have ascii : e.toNat < 128 := by rcases mark with rfl | rfl <;> decide
    have start : At text (sign ++ (digits ++ later)) (pos + 1) := by
      have moved := At.step (c := e) (by simpa using here) ascii
      simpa using moved
    have first : ∃ c more, digits ++ later = c :: more ∧ isDigit c = true := by
      obtain ⟨nonempty, digit⟩ := all
      cases digits with
      | nil => exact absurd rfl nonempty
      | cons c digits => exact ⟨c, digits ++ later, rfl, digit c mem_cons_self⟩
    obtain ⟨stop, scanned, there⟩ := scanDigits_stops (sign_stops start isSign first) all stops
    refine ⟨stop, ?_, there⟩
    rw [scanExponent, if_pos]
    · exact scanned
    · rw [peek_eq_byte here (by decide), peek_eq_byte here (by decide)]
      rcases mark with rfl | rfl
      · exact .inl ⟨_, rfl⟩
      · exact .inr ⟨_, rfl⟩

/-- A number read off the text, with the value its span has. -/
def SpellsNumber (value : Json) (spelled : List Char) : Prop :=
  Number spelled ∧ value = numberOf spelled

theorem parseNumber_reads (here : At text rest pos) :
    Reads text SpellsNumber rest (parseNumber text pos) := by
  unfold parseNumber
  have whole := scanInteger_scans here
  cases integerEq : scanInteger text pos with
  | error halt =>
    rw [integerEq] at whole
    cases whole
    exact .refused
  | ok afterWhole =>
    rw [integerEq] at whole
    cases whole with
    | passed wholeSplit wholeSpelled thereWhole =>
      have fraction := scanFraction_scans thereWhole
      simp only [bind, Except.bind]
      cases fractionEq : scanFraction text afterWhole with
      | error halt =>
        rw [fractionEq] at fraction
        cases fraction
        exact .refused
      | ok afterFraction =>
        rw [fractionEq] at fraction
        cases fraction with
        | passed fractionSplit fractionSpelled thereFraction =>
          have exponent := scanExponent_scans thereFraction
          simp only
          cases exponentEq : scanExponent text afterFraction with
          | error halt =>
            rw [exponentEq] at exponent
            cases exponent
            exact .refused
          | ok stop =>
            rw [exponentEq] at exponent
            cases exponent with
            | passed exponentSplit exponentSpelled final =>
              subst wholeSplit fractionSplit exponentSplit
              obtain ⟨minus, digits, rfl, sign, integral⟩ := wholeSpelled
              simp only [<- append_assoc] at here
              simp only [here.slice final]
              exact .read (by simp) ⟨⟨minus, digits, _, _, rfl, sign, integral,
                fractionSpelled, exponentSpelled⟩, rfl⟩ final

/-- The first character, if there is one, does not go on with a number. -/
def EndsNumber (later : List Char) : Prop :=
  ∀ c after, later = c :: after -> isDigit c = false ∧ c ≠ '.' ∧ c ≠ 'e' ∧ c ≠ 'E'

theorem parseNumber_stops (spelled : List Char) (here : At text (spelled ++ later) pos)
    (number : Number spelled) (ends : EndsNumber later) :
    ∃ stop, parseNumber text pos = .ok (numberOf spelled, stop) ∧ At text later stop := by
  have whole := here
  obtain ⟨minus, digits, fraction, exponent, rfl, sign, integral, isFraction, isExponent⟩ := number
  have exponentEnds : Stops isDigit later := fun c after same => (ends c after same).1
  have fractionEnds : Stops isDigit (exponent ++ later) ∧
      ∀ after, exponent ++ later ≠ '.' :: after := by
    obtain rfl | ⟨e, sign, tail, rfl, mark, -⟩ := isExponent
    · exact ⟨exponentEnds, fun after same => (ends '.' after same).2.1 rfl⟩
    · constructor
      · intro c after same
        obtain rfl : e = c := by simpa using congrArg List.head? same
        rcases mark with rfl | rfl <;> rfl
      · intro after same
        obtain rfl : e = '.' := by simpa using congrArg List.head? same
        exact absurd mark (by decide)
  have integerEnds : Stops isDigit (fraction ++ (exponent ++ later)) := by
    obtain rfl | ⟨tail, rfl, -⟩ := isFraction
    · exact fractionEnds.1
    · intro c after same
      obtain rfl : '.' = c := by simpa using congrArg List.head? same
      rfl
  simp only [append_assoc] at here
  obtain ⟨first, integerEq, there⟩ := scanInteger_stops (by simpa using here) sign integral integerEnds
  obtain ⟨second, fractionEq, there⟩ := scanFraction_stops there isFraction fractionEnds.1
    fractionEnds.2
  obtain ⟨stop, exponentEq, there⟩ := scanExponent_stops there isExponent exponentEnds
    fun e after same mark => by
      have apart := (ends e after same).2.2
      tauto
  refine ⟨stop, ?_, there⟩
  simp only [parseNumber, integerEq, fractionEq, exponentEq, bind, Except.bind, whole.slice there]

end InlaySql.Json
