import InlaySql.Json.Reading
import InlaySql.Lib.Fallible

/-!
# Reading strings

An escape is decoded by its bytes and a plain character by its suffix. Hexadecimal digits are
ASCII, so four bytes that read as digits are four characters.
-/

namespace InlaySql.Json

open List Sql Lib Lib.Utf8

variable {text rest : List Char} {pos : Nat}

/-! ## Hexadecimal digits -/

theorem hexDigit_bounds {c : Char} {digit : Nat} (reads : hexDigit c = some digit) :
    c.toNat < 128 ∧ digit < 16 := by
  simp only [hexDigit, Char.le_def, UInt32.le_iff_toNat_le] at reads
  change (if 48 ≤ c.toNat ∧ c.toNat ≤ 57 then some (c.toNat - 48)
    else if 97 ≤ c.toNat ∧ c.toNat ≤ 102 then some (c.toNat - 97 + 10)
    else if 65 ≤ c.toNat ∧ c.toNat ≤ 70 then some (c.toNat - 65 + 10) else none) = _ at reads
  split_ifs at reads <;> injection reads with reads <;> omega

theorem hexDigit_lead (c : Char) : hexDigit (charOf (lead c)) = hexDigit c := by
  obtain ⟨-, same⟩ | ⟨large, first⟩ := charOf_lead c
  · rw [same]
  · have none {d : Char} (beyond : 128 ≤ d.toNat) : hexDigit d = none := by
      cases reads : hexDigit d with
      | none => rfl
      | some digit =>
        have bounds := hexDigit_bounds reads
        omega
    rw [none large, none first]

theorem shortEscape_lead (c : Char) : shortEscape (charOf (lead c)) = shortEscape c := by
  obtain ⟨-, same⟩ | ⟨large, first⟩ := charOf_lead c
  · rw [same]
  · have none {d : Char} (beyond : 128 ≤ d.toNat) : shortEscape d = none := by
      have apart {e : Char} (ascii : e.toNat < 128) : d ≠ e := by
        rintro rfl
        omega
      simp only [shortEscape, apart (e := '"') (by decide), apart (e := '\\') (by decide),
        apart (e := '/') (by decide), apart (e := 'b') (by decide), apart (e := 'f') (by decide),
        apart (e := 'n') (by decide), apart (e := 'r') (by decide), apart (e := 't') (by decide),
        if_false]
    rw [none large, none first]

theorem digits_of_bytes {count : Nat} {values : List Nat}
    (enough : ((encode rest).take count).length = count)
    (reads : ((encode rest).take count).mapM (fun b => hexDigit (charOf b)) = some values) :
    ∃ digits later, rest = digits ++ later ∧ digits.length = count ∧
      digits.mapM hexDigit = some values := by
  induction count generalizing rest values with
  | zero => exact ⟨[], rest, rfl, rfl, by simpa using reads⟩
  | succ count ih =>
    cases rest with
    | nil => simp [encode] at enough
    | cons c rest =>
      obtain ⟨later, bytes⟩ := utf8EncodeChar_eq c
      rw [encode_cons, bytes, cons_append, take_succ_cons] at reads enough
      rw [mapM_cons, hexDigit_lead] at reads
      cases digitEq : hexDigit c with
      | none => simp [digitEq] at reads
      | some digit =>
        have ascii := (hexDigit_bounds digitEq).1
        have alone : later = [] := by simpa [utf8EncodeChar_ascii ascii] using bytes.symm
        subst alone
        rw [nil_append] at reads enough
        cases restEq : ((encode rest).take count).mapM (fun b => hexDigit (charOf b)) with
        | none => simp [digitEq, restEq] at reads
        | some others =>
          obtain ⟨digits, after, rfl, length, readOthers⟩ :=
            ih (by simpa using enough) restEq
          refine ⟨c :: digits, after, rfl, by simp [length], ?_⟩
          simpa [digitEq, restEq, readOthers] using reads

theorem ascii_of_digits {digits : List Char} {values : List Nat}
    (reads : digits.mapM hexDigit = some values) : ∀ c ∈ digits, c.toNat < 128 := by
  induction digits generalizing values with
  | nil => simp
  | cons c digits ih =>
    rw [mapM_cons] at reads
    cases digitEq : hexDigit c with
    | none => simp [digitEq] at reads
    | some digit =>
      cases restEq : digits.mapM hexDigit with
      | none => simp [digitEq, restEq] at reads
      | some others =>
        simp only [mem_cons, forall_eq_or_imp]
        exact ⟨(hexDigit_bounds digitEq).1, ih restEq⟩

section

variable {digits : List Char} {code : Nat} (unit : codeUnit digits = some code)

include unit

theorem codeUnit_ascii :
    digits.length = 4 ∧ ∀ c ∈ digits, c.toNat < 128 := by
  unfold codeUnit at unit
  split at unit
  · rename_i four
    cases readEq : digits.mapM hexDigit with
    | none => simp [readEq] at unit
    | some values => exact ⟨four, ascii_of_digits readEq⟩
  · cases unit

theorem codeUnit_lt :
    code < 0x10000 := by
  have four := (codeUnit_ascii unit).1
  obtain ⟨a, b, c, d, rfl⟩ : ∃ a b c d, digits = [a, b, c, d] := by
    match digits, four with
    | [a, b, c, d], _ => exact ⟨a, b, c, d, rfl⟩
  cases aEq : hexDigit a <;> cases bEq : hexDigit b <;> cases cEq : hexDigit c <;>
    cases dEq : hexDigit d <;> simp [codeUnit, aEq, bEq, cEq, dEq] at unit
  have aBound := (hexDigit_bounds aEq).2
  have bBound := (hexDigit_bounds bEq).2
  have cBound := (hexDigit_bounds cEq).2
  have dBound := (hexDigit_bounds dEq).2
  omega

end

theorem hex4_cases (here : At text rest pos) :
    hex4 text pos = .error .parseError ∨ ∃ code digits later, hex4 text pos = .ok code ∧
      rest = digits ++ later ∧ codeUnit digits = some code ∧ At text later (pos + 4) := by
  unfold hex4
  rw [here.bytes]
  dsimp only
  split
  · rename_i enough
    cases readEq : ((encode rest).take 4).mapM (fun b => hexDigit (charOf b)) with
    | none => exact .inl rfl
    | some values =>
      obtain ⟨digits, later, rfl, four, reads⟩ := digits_of_bytes enough readEq
      have moved := here.pastAscii (ascii_of_digits reads)
      rw [four] at moved
      refine .inr ⟨_, digits, later, rfl, rfl, ?_, moved⟩
      simp [codeUnit, four, reads]
  · exact .inl rfl

theorem mapM_lead (digits : List Char) :
    (digits.map lead).mapM (fun b => hexDigit (charOf b)) = digits.mapM hexDigit := by
  induction digits with
  | nil => rfl
  | cons c digits ih => rw [map_cons, mapM_cons, mapM_cons, hexDigit_lead, ih]

theorem hex4_stops {digits later : List Char} {code : Nat} (here : At text (digits ++ later) pos)
    (unit : codeUnit digits = some code) :
    hex4 text pos = .ok code ∧ At text later (pos + 4) := by
  obtain ⟨four, ascii⟩ := codeUnit_ascii unit
  have moved := here.pastAscii ascii
  rw [four] at moved
  refine ⟨?_, moved⟩
  have front : (encode (digits ++ later)).take 4 = digits.map lead := by
    rw [encode_append, encode_ascii ascii, <- four, <- length_map (f := lead), take_left]
  simp only [codeUnit, four, if_true] at unit
  cases readEq : digits.mapM hexDigit with
  | none => simp [readEq] at unit
  | some values =>
    simp only [readEq, Option.bind_some, Option.bind_eq_bind, Option.some.injEq] at unit
    simp only [hex4, here.bytes, front, length_map, four, if_true, mapM_lead, readEq, unit]

/-! ## Escapes -/

theorem fromU32_unit {code : Nat} (small : code < 0x10000) (notHigh : ¬ IsHigh code) :
    fromU32 code = if IsLow code then .error .parseError else .ok (Char.ofNat code) := by
  unfold IsHigh at notHigh
  by_cases low : IsLow code
  · rw [if_pos low, fromU32, if_neg]
    unfold IsLow at low
    unfold Nat.isValidChar
    omega
  · rw [if_neg low, fromU32, if_pos]
    unfold IsLow at low
    unfold Nat.isValidChar
    omega

theorem fromU32_combined {high low : Nat} (isHigh : IsHigh high) (isLow : IsLow low) :
    fromU32 (combined high low) = .ok (Char.ofNat (combined high low)) := by
  unfold IsHigh at isHigh
  unfold IsLow at isLow
  unfold fromU32
  rw [if_pos]
  unfold combined Nat.isValidChar
  omega

/-- What follows a backslash, and the character it stands for. -/
inductive Escape : List Char -> Char -> Prop where
  | short {escape c} (escapes : shortEscape escape = some c) : Escape [escape] c
  | unicode {digits code} (unit : codeUnit digits = some code) (notHigh : ¬ IsHigh code)
      (notLow : ¬ IsLow code) : Escape ('u' :: digits) (Char.ofNat code)
  | pair {digits high digits' low} (unit : codeUnit digits = some high) (isHigh : IsHigh high)
      (unit' : codeUnit digits' = some low) (isLow : IsLow low) :
      Escape ('u' :: digits ++ '\\' :: 'u' :: digits') (Char.ofNat (combined high low))

theorem Escape.quoted {spelled quoted chars : List Char} {c : Char} (escape : Escape spelled c)
    (later : Quoted quoted chars) : Quoted ('\\' :: spelled ++ quoted) (c :: chars) := by
  cases escape with
  | short escapes => exact .short escapes later
  | unicode unit notHigh notLow => exact .unicode unit notHigh notLow later
  | pair unit isHigh unit' isLow => simpa using Quoted.pair unit isHigh unit' isLow later

/-- An escape is refused, or read off the text up to its last byte. -/
inductive Escapes (text rest : List Char) : Except Halt (Char × Nat) -> Prop where
  | refused : Escapes text rest (.error .parseError)
  | read {c s later pos} (split : rest = s ++ later) (spells : Escape s c)
      (there : At text later (pos + 1)) : Escapes text rest (.ok (c, pos))

theorem parseUnicode_escapes (here : At text ('u' :: rest) pos) :
    Escapes text ('u' :: rest) (parseUnicode text pos) := by
  unfold parseUnicode
  obtain refused | ⟨code, digits, later, unitEq, rfl, unit, there⟩ :=
    hex4_cases (here.step (by decide))
  · rw [refused]
    exact .refused
  · rw [unitEq, ok_bind]
    dsimp only
    by_cases isHigh : IsHigh code
    · rw [if_pos isHigh]
      split
      · rename_i marked
        obtain ⟨slash, mark⟩ := marked
        have position : pos + 4 + 1 = pos + 1 + 4 := by omega
        rw [position] at slash
        obtain ⟨later, rfl⟩ := (peek_eq_byte there (by decide)).mp slash
        have there := there.step (by decide)
        have position : pos + 4 + 2 = pos + 1 + 4 + 1 := by omega
        rw [position] at mark
        obtain ⟨later, rfl⟩ := (peek_eq_byte there (by decide)).mp mark
        have there := there.step (by decide)
        have position : pos + 4 + 3 = pos + 1 + 4 + 1 + 1 := by omega
        rw [position]
        obtain refused | ⟨low, digits', later, lowEq, rfl, unit', there⟩ := hex4_cases there
        · rw [refused]
          exact .refused
        · rw [lowEq, ok_bind]
          by_cases isLow : IsLow low
          · rw [if_pos isLow, fromU32_combined isHigh isLow, ok_bind]
            have position : pos + 4 + 6 + 1 = pos + 1 + 4 + 1 + 1 + 4 := by omega
            rw [<- position] at there
            exact .read (by simp) (.pair unit isHigh unit' isLow) there
          · rw [if_neg isLow]
            exact .refused
      · exact .refused
    · rw [if_neg isHigh, fromU32_unit (codeUnit_lt unit) isHigh]
      by_cases isLow : IsLow code
      · rw [if_pos isLow]
        exact .refused
      · rw [if_neg isLow, ok_bind]
        have position : pos + 1 + 4 = pos + 4 + 1 := by omega
        rw [position] at there
        exact .read rfl (.unicode unit isHigh isLow) there

theorem parseUnicode_unit {digits later : List Char} {code : Nat}
    (here : At text ('u' :: digits ++ later) pos) (unit : codeUnit digits = some code)
    (notHigh : ¬ IsHigh code) (notLow : ¬ IsLow code) :
    parseUnicode text pos = .ok (Char.ofNat code, pos + 4) ∧ At text later (pos + 4 + 1) := by
  obtain ⟨unitEq, there⟩ := hex4_stops (At.step (c := 'u') here (by decide)) unit
  have position : pos + 1 + 4 = pos + 4 + 1 := by omega
  rw [position] at there
  refine ⟨?_, there⟩
  simp [parseUnicode, unitEq, bind, Except.bind, notHigh, fromU32_unit (codeUnit_lt unit) notHigh,
    notLow]

theorem parseUnicode_pair {digits digits' later : List Char} {high low : Nat}
    (here : At text ('u' :: digits ++ '\\' :: 'u' :: digits' ++ later) pos)
    (unit : codeUnit digits = some high) (isHigh : IsHigh high)
    (unit' : codeUnit digits' = some low) (isLow : IsLow low) :
    parseUnicode text pos = .ok (Char.ofNat (combined high low), pos + 10) ∧
      At text later (pos + 10 + 1) := by
  have start : At text (digits ++ '\\' :: 'u' :: (digits' ++ later)) (pos + 1) := by
    have moved := At.step (c := 'u') here (by decide)
    simpa using moved
  obtain ⟨highEq, slash⟩ := hex4_stops start unit
  have mark := slash.step (by decide)
  have second := mark.step (by decide)
  obtain ⟨lowEq, there⟩ := hex4_stops second unit'
  have slashAt : peek text (pos + 4 + 1) = some (byte '\\') := by
    have position : pos + 4 + 1 = pos + 1 + 4 := by omega
    rw [position, peek_eq_byte slash (by decide)]
    exact ⟨_, rfl⟩
  have markAt : peek text (pos + 4 + 2) = some (byte 'u') := by
    have position : pos + 4 + 2 = pos + 1 + 4 + 1 := by omega
    rw [position, peek_eq_byte mark (by decide)]
    exact ⟨_, rfl⟩
  have lowAt : hex4 text (pos + 4 + 3) = .ok low := by
    have position : pos + 4 + 3 = pos + 1 + 4 + 1 + 1 := by omega
    rw [position, lowEq]
  have position : pos + 1 + 4 + 1 + 1 + 4 = pos + 10 + 1 := by omega
  rw [position] at there
  refine ⟨?_, there⟩
  unfold parseUnicode
  rw [highEq, ok_bind]
  dsimp only
  rw [if_pos isHigh, if_pos ⟨slashAt, markAt⟩, lowAt, ok_bind, if_pos isLow,
    fromU32_combined isHigh isLow, ok_bind]

theorem shortEscape_u : shortEscape 'u' = none := by decide

theorem parseEscape_escapes (here : At text rest pos) :
    Escapes text rest (parseEscape text pos) := by
  unfold parseEscape
  cases rest with
  | nil =>
    rw [peek_nil here]
    exact .refused
  | cons c rest =>
    rw [peek_cons here]
    dsimp only
    rw [shortEscape_lead]
    cases shortEq : shortEscape c with
    | some meant =>
      have ascii : c.toNat < 128 := by
        by_contra large
        unfold shortEscape at shortEq
        split_ifs at shortEq <;> subst c <;> exact large (by decide)
      exact .read (s := [c]) rfl (.short shortEq) (here.step ascii)
    | none =>
      simp only [lead_eq_byte (d := 'u') (by decide)]
      split
      · rename_i mark
        subst mark
        exact parseUnicode_escapes here
      · exact .refused

theorem parseEscape_stops {spelled later : List Char} {c : Char}
    (here : At text (spelled ++ later) pos) (escape : Escape spelled c) :
    ∃ stop, parseEscape text pos = .ok (c, stop) ∧ At text later (stop + 1) := by
  cases escape with
  | @short escape _ escapes =>
    have ascii : escape.toNat < 128 := by
      by_contra large
      unfold shortEscape at escapes
      split_ifs at escapes <;> subst escape <;> exact large (by decide)
    refine ⟨pos, ?_, At.step (c := escape) here ascii⟩
    simp [parseEscape, peek_cons (c := escape) here, shortEscape_lead, escapes]
  | unicode unit notHigh notLow =>
    obtain ⟨parsed, there⟩ := parseUnicode_unit here unit notHigh notLow
    refine ⟨_, ?_, there⟩
    rw [<- parsed]
    simp [parseEscape, peek_cons (c := 'u') here, shortEscape_lead, shortEscape_u,
      lead_eq_byte (d := 'u') (by decide)]
  | pair unit isHigh unit' isLow =>
    obtain ⟨parsed, there⟩ := parseUnicode_pair here unit isHigh unit' isLow
    refine ⟨_, ?_, there⟩
    rw [<- parsed]
    simp [parseEscape, peek_cons (c := 'u') (by simpa using here), shortEscape_lead,
      shortEscape_u, lead_eq_byte (d := 'u') (by decide)]

/-! ## Strings -/

/-- What is read up to the closing quote, after what was read before. -/
def Closes (out value spelled : List Char) : Prop :=
  ∃ quoted chars, spelled = quoted ++ ['"'] ∧ Quoted quoted chars ∧ value = out ++ chars

theorem parseQuoted_reads {turns : Nat} (out : List Char) (here : At text rest pos)
    (enough : rest.length < turns) :
    Reads text (Closes out) rest (parseQuoted text turns pos out) := by
  induction turns generalizing rest pos out with
  | zero => omega
  | succ turns ih =>
    cases rest with
    | nil =>
      rw [parseQuoted, peek_nil here]
      exact .refused
    | cons c rest =>
      rw [length_cons] at enough
      simp only [parseQuoted, peek_cons here, lead_eq_byte (d := '"') (by decide),
        lead_eq_byte (d := '\\') (by decide), lead_lt_iff 0x20 (by decide),
        here.suffixAt]
      by_cases quote : c = '"'
      · subst quote
        exact .read (s := ['"']) rfl ⟨[], [], rfl, .nil, (append_nil out).symm⟩
          (here.step (by decide))
      rw [if_neg quote]
      by_cases slash : c = '\\'
      · subst slash
        rw [if_pos rfl]
        have escape := parseEscape_escapes (here.step (by decide))
        cases escapeEq : parseEscape text (pos + 1) with
        | error halt =>
          rw [escapeEq] at escape
          cases escape
          exact .refused
        | ok meant =>
          rw [escapeEq] at escape
          cases escape with
          | @read c spelled later stop split spells there =>
            subst split
            rw [ok_bind]
            dsimp only
            have read := ih (out ++ [c]) there (by
              rw [length_append] at enough
              omega)
            generalize parseQuoted text turns (stop + 1) (out ++ [c]) = result at read
            cases read with
            | refused => exact .refused
            | read split closes final =>
              obtain ⟨quoted, chars, rfl, quotes, rfl⟩ := closes
              subst split
              exact .read (s := '\\' :: spelled ++ (quoted ++ ['"'])) (by simp)
                ⟨'\\' :: spelled ++ quoted, c :: chars, by simp, spells.quoted quotes,
                  by simp⟩ final
      rw [if_neg slash]
      by_cases control : c.toNat < 0x20
      · rw [if_pos control]
        exact .refused
      · rw [if_neg control]
        have read := ih (out ++ [c]) here.next (by omega)
        generalize parseQuoted text turns (pos + c.utf8Size) (out ++ [c]) = result at read
        cases read with
        | refused => exact .refused
        | read split closes there =>
          obtain ⟨quoted, chars, rfl, quotes, rfl⟩ := closes
          subst split
          exact .read (s := c :: (quoted ++ ['"'])) rfl ⟨c :: quoted, c :: chars, rfl,
              .plain ⟨Nat.le_of_not_lt control, quote, slash⟩ quotes, by simp⟩ there

theorem parseQuoted_escape (turns : Nat) (out spelled : List Char) {later : List Char} {c : Char}
    (here : At text ('\\' :: spelled ++ later) pos) (escape : Escape spelled c) :
    ∃ stop, parseQuoted text (turns + 1) pos out = parseQuoted text turns stop (out ++ [c]) ∧
      At text later stop := by
  obtain ⟨stop, parsed, there⟩ := parseEscape_stops (At.step (c := '\\') here (by decide)) escape
  refine ⟨stop + 1, ?_, there⟩
  rw [parseQuoted, peek_cons (c := '\\') here]
  dsimp only
  rw [if_neg (by decide), if_pos (by decide), parsed, ok_bind]

theorem parseQuoted_stops {quoted chars later : List Char} (quotes : Quoted quoted chars)
    (turns : Nat) (out : List Char) (here : At text (quoted ++ '"' :: later) pos)
    (enough : quoted.length < turns) :
    ∃ stop, parseQuoted text turns pos out = .ok (out ++ chars, stop) ∧ At text later stop := by
  induction quotes generalizing turns pos out with
  | nil =>
    obtain ⟨turns, rfl⟩ : ∃ more, turns = more + 1 := ⟨turns - 1, by simp at enough; omega⟩
    refine ⟨pos + 1, ?_, At.step (c := '"') here (by decide)⟩
    rw [parseQuoted, peek_cons (c := '"') here]
    dsimp only
    rw [if_pos (by decide), append_nil]
  | @plain c quoted chars unescaped _ ih =>
    obtain ⟨turns, rfl⟩ : ∃ more, turns = more + 1 := ⟨turns - 1, by omega⟩
    obtain ⟨visible, notQuote, notSlash⟩ := unescaped
    obtain ⟨stop, parsed, there⟩ := ih turns (out ++ [c]) (At.next here)
      (by rw [length_cons] at enough; omega)
    refine ⟨stop, ?_, there⟩
    simp only [parseQuoted, peek_cons (c := c) here, lead_eq_byte (d := '"') (by decide),
      lead_eq_byte (d := '\\') (by decide), lead_lt_iff 0x20 (by decide),
      here.suffixAt, if_neg notQuote, if_neg notSlash, if_neg (Nat.not_lt.mpr visible)]
    simpa using parsed
  | @short escape c quoted chars escapes _ ih =>
    obtain ⟨turns, rfl⟩ : ∃ more, turns = more + 1 := ⟨turns - 1, by omega⟩
    obtain ⟨next, stepped, there⟩ := parseQuoted_escape turns out [escape] here (.short escapes)
    obtain ⟨stop, parsed, there⟩ := ih turns (out ++ [c]) there
      (by simp only [length_cons] at enough; omega)
    exact ⟨stop, by simpa [stepped] using parsed, there⟩
  | @unicode digits code quoted chars unit notHigh notLow _ ih =>
    obtain ⟨turns, rfl⟩ : ∃ more, turns = more + 1 := ⟨turns - 1, by omega⟩
    obtain ⟨next, stepped, there⟩ := parseQuoted_escape turns out ('u' :: digits)
      (by simpa using here) (.unicode unit notHigh notLow)
    obtain ⟨stop, parsed, there⟩ := ih turns (out ++ [Char.ofNat code]) there
      (by simp only [length_cons, length_append] at enough; omega)
    exact ⟨stop, by simpa [stepped] using parsed, there⟩
  | @pair digits high digits' low quoted chars unit isHigh unit' isLow _ ih =>
    obtain ⟨turns, rfl⟩ : ∃ more, turns = more + 1 := ⟨turns - 1, by omega⟩
    have escape := Escape.pair unit isHigh unit' isLow
    generalize Char.ofNat (combined high low) = c at escape ⊢
    obtain ⟨next, stepped, there⟩ := parseQuoted_escape turns out _ (by simpa using here) escape
    obtain ⟨stop, parsed, there⟩ := ih turns (out ++ [c]) (by simpa using there)
      (by simp only [length_cons, length_append] at enough; omega)
    exact ⟨stop, by simpa [stepped] using parsed, there⟩

theorem parseString_reads (here : At text ('"' :: rest) pos) :
    Reads text (fun value => SpellsString (String.ofList value)) ('"' :: rest)
      (parseString text pos) := by
  have start := here.step (by decide)
  have read := parseQuoted_reads [] start (Nat.lt_succ_of_le start.length_le)
  unfold parseString
  generalize parseQuoted text ((encode text).length + 1) (pos + 1) [] = result at read
  cases read with
  | refused => exact .refused
  | read split closes there =>
    obtain ⟨quoted, chars, rfl, quotes, rfl⟩ := closes
    subst split
    exact .read (s := '"' :: quoted ++ ['"']) (by simp) ⟨quoted, rfl, by simpa using quotes⟩ there

theorem parseString_stops {value : String} {spelled later : List Char}
    (here : At text (spelled ++ later) pos) (spells : SpellsString value spelled) :
    ∃ stop, parseString text pos = .ok (value.toList, stop) ∧ At text later stop := by
  obtain ⟨quoted, rfl, quotes⟩ := spells
  have start : At text (quoted ++ '"' :: later) (pos + 1) := by
    have moved := At.step (c := '"') here (by decide)
    simpa using moved
  have bound := start.length_le
  rw [length_append, length_cons] at bound
  obtain ⟨stop, parsed, there⟩ := parseQuoted_stops quotes
    ((encode text).length + 1) [] start (by omega)
  exact ⟨stop, parsed, there⟩

end InlaySql.Json
