import InlaySql.Json.ReadingValues

/-!
# Accepting values

Whatever the grammar spells is accepted, as the value it spells. The induction is on the
value; a number needs the character after it, which is a comma, a bracket or whitespace.
-/

namespace InlaySql.Json

open List Sql Lib Lib.Utf8

variable {text : List Char} {pos : Nat}

theorem skipWs_stops (ws later : List Char) (here : At text (ws ++ later) pos) (isWs : Ws ws)
    (stops : Stops Json.isWs later) : At text later (skipWs text pos) := by
  have there := skipWs_at here
  rwa [dropWhile_append_stops isWs stops] at there

variable {later : List Char}

theorem skipWs_still (here : At text later pos) (stops : Stops Json.isWs later) :
    At text later (skipWs text pos) :=
  skipWs_stops [] later here Ws.nil stops

theorem stops_cons {pass : Char -> Bool} {c : Char} (fails : pass c = false) :
    Stops pass (c :: later) := by
  intro d after same
  cases same
  exact fails

theorem endsNumber_append {ws : List Char} (isWs : Ws ws) (ends : EndsNumber later) :
    EndsNumber (ws ++ later) := by
  intro c after same
  cases ws with
  | nil => exact ends c after same
  | cons d ws =>
    cases same
    have blank := isWs c mem_cons_self
    simp only [Json.isWs, Bool.or_eq_true, beq_iff_eq] at blank
    rcases blank with ((rfl | rfl) | rfl) | rfl <;> decide

theorem endsNumber_cons {c : Char} (later : List Char) (mark : c = ',' ∨ c = ']' ∨ c = '}') :
    EndsNumber (c :: later) := by
  intro d after same
  cases same
  rcases mark with rfl | rfl | rfl <;> decide

theorem endsNumber_nil : EndsNumber [] := by
  intro c after same
  cases same

theorem Number.first {word : List Char} (number : Number word) :
    ∃ c later, word = c :: later ∧ (c = '-' ∨ isDigit c = true) := by
  obtain ⟨minus, whole, fraction, exponent, rfl, sign, integral, -, -⟩ := number
  obtain rfl | rfl := sign
  · obtain rfl | ⟨first, digits, rfl, digit, -⟩ := integral
    · exact ⟨'0', _, rfl, .inr rfl⟩
    · exact ⟨first, _, rfl, .inr digit⟩
  · exact ⟨'-', _, rfl, .inl rfl⟩

theorem Spells.first {value : Json} {word : List Char} (spells : Spells value word) :
    ∃ c later, word = c :: later ∧ isWs c = false ∧ c ≠ ']' := by
  have ofNumber (number : Number word) : ∃ c later, word = c :: later ∧ isWs c = false ∧ c ≠ ']' := by
    obtain ⟨c, later, rfl, start⟩ := number.first
    refine ⟨c, later, rfl, ?_⟩
    obtain rfl | digit := start
    · decide
    · have bounds := (isDigit_iff c).mp digit
      have apart {d : Char} (beyond : d.toNat < 48 ∨ 57 < d.toNat) : c ≠ d := by
        rintro rfl
        omega
      refine ⟨?_, apart (by decide)⟩
      simp [isWs, apart (d := ' ') (by decide), apart (d := '\t') (by decide),
        apart (d := '\n') (by decide), apart (d := '\r') (by decide)]
  cases value with
  | null =>
    simp only [Spells] at spells
    subst spells
    exact ⟨'n', ['u', 'l', 'l'], rfl, by decide⟩
  | bool value =>
    cases value with
    | true =>
      simp only [Spells] at spells
      subst spells
      exact ⟨'t', ['r', 'u', 'e'], rfl, by decide⟩
    | false =>
      simp only [Spells] at spells
      subst spells
      exact ⟨'f', ['a', 'l', 's', 'e'], rfl, by decide⟩
  | int value => exact ofNumber spells.1
  | real value written => exact ofNumber spells.1
  | text value =>
    obtain ⟨quoted, rfl, -⟩ := spells
    exact ⟨'"', _, rfl, by decide⟩
  | array items =>
    obtain ⟨inner, rfl, -⟩ := spells
    exact ⟨'[', _, rfl, by decide⟩
  | object members =>
    obtain ⟨inner, rfl, -⟩ := spells
    exact ⟨'{', _, rfl, by decide⟩

/-! ## One value -/

theorem parseValue_at (ws : List Char) {c : Char} (turns : Nat)
    (here : At text (ws ++ c :: later) pos) (isWs : Ws ws) (visible : Json.isWs c = false) :
    ∃ start, At text (c :: later) start ∧ parseValue text (turns + 1) pos =
      if c = '{' then parseObject text turns start
      else if c = '[' then parseArray text turns start
      else if c = '"' then parseString text start >>= fun read =>
        .ok (.text (String.ofList read.1), read.2)
      else if c = 't' then literal text start "true".toList (.bool true)
      else if c = 'f' then literal text start "false".toList (.bool false)
      else if c = 'n' then literal text start "null".toList .null
      else if c = '-' ∨ isDigit c = true then parseNumber text start
      else .error .parseError := by
  have there := skipWs_stops ws _ here isWs (stops_cons visible)
  refine ⟨_, there, ?_⟩
  have digit : (byte '0' ≤ lead c ∧ lead c ≤ byte '9') ↔ isDigit c = true := by
    rw [<- isDigitByte_lead]
    simp [isDigitByte]
  rw [parseValue]
  simp only [peek_cons there, lead_eq_byte (d := '{') (by decide),
    lead_eq_byte (d := '[') (by decide), lead_eq_byte (d := '"') (by decide),
    lead_eq_byte (d := 't') (by decide), lead_eq_byte (d := 'f') (by decide),
    lead_eq_byte (d := 'n') (by decide), lead_eq_byte (d := '-') (by decide), digit]

theorem literal_stops (word : List Char) (value : Json) (here : At text (word ++ later) pos) :
    ∃ stop, literal text pos word value = .ok (value, stop) ∧ At text later stop := by
  refine ⟨_, ?_, here.past⟩
  rw [literal, here.bytes, encode_append, take_left, if_pos rfl]

theorem parseValue_number {ws word : List Char} (turns : Nat)
    (here : At text (ws ++ (word ++ later)) pos) (isWs : Ws ws) (number : Number word)
    (ends : EndsNumber later) :
    ∃ stop, parseValue text (turns + 1) pos = .ok (numberOf word, stop) ∧ At text later stop := by
  have whole := number
  obtain ⟨c, digits, rfl, start⟩ := number.first
  have apart : Json.isWs c = false ∧ c ≠ '{' ∧ c ≠ '[' ∧ c ≠ '"' ∧ c ≠ 't' ∧ c ≠ 'f' ∧ c ≠ 'n' := by
    obtain rfl | digit := start
    · decide
    · have bounds := (isDigit_iff c).mp digit
      have apart {d : Char} (beyond : d.toNat < 48 ∨ 57 < d.toNat) : c ≠ d := by
        rintro rfl
        omega
      refine ⟨?_, apart (by decide), apart (by decide), apart (by decide), apart (by decide),
        apart (by decide), apart (by decide)⟩
      simp [Json.isWs, apart (d := ' ') (by decide), apart (d := '\t') (by decide),
        apart (d := '\n') (by decide), apart (d := '\r') (by decide)]
  obtain ⟨visible, a, b, d, e, f, g⟩ := apart
  obtain ⟨first, there, dispatched⟩ := parseValue_at ws turns here isWs visible
  obtain ⟨stop, parsed, final⟩ := parseNumber_stops (c :: digits) there whole ends
  refine ⟨stop, ?_, final⟩
  rw [dispatched, if_neg a, if_neg b, if_neg d, if_neg e, if_neg f, if_neg g, if_pos start, parsed]

/-! ## Every value -/

mutual

theorem accepts_value (value : Json) (ws : List Char) (turns : Nat) {word later : List Char}
    {pos : Nat}
    (spells : Spells value word) (isWs : Ws ws) (ends : EndsNumber later)
    (here : At text (ws ++ (word ++ later)) pos)
    (enough : 3 * (word ++ later).length + 1 ≤ turns) :
    ∃ stop, parseValue text turns pos = .ok (value, stop) ∧ At text later stop := by
  obtain ⟨turns, rfl⟩ : ∃ fewer, turns = fewer + 1 := ⟨turns - 1, by omega⟩
  cases value with
  | null =>
    simp only [Spells] at spells
    subst spells
    obtain ⟨first, there, dispatched⟩ := parseValue_at (c := 'n') ws turns here isWs (by decide)
    obtain ⟨stop, parsed, final⟩ := literal_stops "null".toList .null there
    exact ⟨stop, dispatched.trans parsed, final⟩
  | bool value =>
    cases value with
    | true =>
      simp only [Spells] at spells
      subst spells
      obtain ⟨first, there, dispatched⟩ := parseValue_at (c := 't') ws turns here isWs (by decide)
      obtain ⟨stop, parsed, final⟩ := literal_stops "true".toList (.bool true) there
      exact ⟨stop, dispatched.trans parsed, final⟩
    | false =>
      simp only [Spells] at spells
      subst spells
      obtain ⟨first, there, dispatched⟩ := parseValue_at (c := 'f') ws turns here isWs (by decide)
      obtain ⟨stop, parsed, final⟩ := literal_stops "false".toList (.bool false) there
      exact ⟨stop, dispatched.trans parsed, final⟩
  | int value =>
    obtain ⟨number, reads⟩ := spells
    obtain ⟨stop, parsed, final⟩ := parseValue_number turns here isWs number ends
    exact ⟨stop, by rw [parsed, numberOf, reads], final⟩
  | real value written =>
    obtain ⟨number, reads, rfl, same⟩ := spells
    obtain ⟨stop, parsed, final⟩ := parseValue_number turns here isWs number ends
    refine ⟨stop, ?_, final⟩
    rw [parsed, numberOf, reads, <- same, String.ofList_toList]
  | text value =>
    have quoted := spells
    obtain ⟨inner, rfl, -⟩ := spells
    obtain ⟨first, there, dispatched⟩ := parseValue_at (c := '"') ws turns (by simpa using here) isWs
      (by decide)
    obtain ⟨stop, parsed, final⟩ := parseString_stops (by simpa using there) quoted
    refine ⟨stop, ?_, final⟩
    rw [dispatched, if_neg (by decide), if_neg (by decide), if_pos rfl, parsed, ok_bind]
    simp only [String.ofList_toList]
  | array items =>
    obtain ⟨inner, rfl, spelled⟩ := spells
    simp only [length_append, length_cons] at enough
    obtain ⟨first, there, dispatched⟩ := parseValue_at (c := '[') ws turns (by simpa using here) isWs
      (by decide)
    rw [dispatched, if_neg (by decide), if_pos rfl]
    obtain ⟨turns, rfl⟩ : ∃ fewer, turns = fewer + 1 := ⟨turns - 1, by omega⟩
    have start : At text (inner ++ ']' :: later) (first + 1) := by
      simpa using there.step (by decide)
    rw [parseArray]
    obtain ⟨rfl, blank⟩ | spelled := spelled
    · have closed := skipWs_stops _ _ start blank (stops_cons (by decide))
      rw [if_pos ((peek_eq_byte closed (by decide)).mpr ⟨_, rfl⟩)]
      exact ⟨_, rfl, closed.step (by decide)⟩
    · obtain ⟨stop, parsed, final⟩ := accepts_items items [] turns spelled start (by
        simp only [length_append, length_cons]
        omega)
      refine ⟨stop, ?_, final⟩
      rw [if_neg, parsed, nil_append]
      cases items with
      | nil => exact spelled.elim
      | cons item items =>
        obtain ⟨before, own, after, rest, rfl, isBefore, -, isItem, -⟩ := spelled
        obtain ⟨c, tail, rfl, visible, open'⟩ := isItem.first
        have there := skipWs_stops before (c :: (tail ++ (after ++ (rest ++ ']' :: later))))
          (by simpa using start) isBefore (stops_cons visible)
        rw [peek_eq_byte there (by decide)]
        rintro ⟨_, same⟩
        exact open' (List.cons.inj same).1
  | object members =>
    obtain ⟨inner, rfl, spelled⟩ := spells
    simp only [length_append, length_cons] at enough
    obtain ⟨first, there, dispatched⟩ := parseValue_at (c := '{') ws turns (by simpa using here) isWs
      (by decide)
    rw [dispatched, if_pos rfl]
    obtain ⟨turns, rfl⟩ : ∃ fewer, turns = fewer + 1 := ⟨turns - 1, by omega⟩
    have start : At text (inner ++ '}' :: later) (first + 1) := by
      simpa using there.step (by decide)
    rw [parseObject]
    obtain ⟨rfl, blank⟩ | spelled := spelled
    · have closed := skipWs_stops _ _ start blank (stops_cons (by decide))
      rw [if_pos ((peek_eq_byte closed (by decide)).mpr ⟨_, rfl⟩)]
      exact ⟨_, rfl, closed.step (by decide)⟩
    · obtain ⟨stop, parsed, final⟩ := accepts_members members [] turns spelled start (by
        simp only [length_append, length_cons]
        omega)
      refine ⟨stop, ?_, final⟩
      rw [if_neg, parsed, nil_append]
      cases members with
      | nil => exact spelled.elim
      | cons member members =>
        obtain ⟨key, value⟩ := member
        obtain ⟨before, name, colon, colon', own, after, rest, rfl, isBefore, isKey, -⟩ := spelled
        obtain ⟨quoted, rfl, -⟩ := isKey
        have there := skipWs_stops before ('"' :: (quoted ++ '"' :: (colon ++ ':' :: (colon' ++
          (own ++ (after ++ (rest ++ '}' :: later))))))) (by simpa using start) isBefore
          (stops_cons (by decide))
        rw [peek_eq_byte there (by decide)]
        rintro ⟨_, same⟩
        exact absurd (List.cons.inj same).1 (by decide)

theorem accepts_items (items front : List Json) (turns : Nat) {inner later : List Char} {pos : Nat}
    (spells : SpellsItems items inner) (here : At text (inner ++ ']' :: later) pos)
    (enough : 3 * (inner ++ ']' :: later).length + 2 ≤ turns) :
    ∃ stop, parseItems text turns (skipWs text pos) front = .ok (.array (front ++ items), stop) ∧
      At text later stop := by
  obtain ⟨turns, rfl⟩ : ∃ fewer, turns = fewer + 1 := ⟨turns - 1, by omega⟩
  cases items with
  | nil => exact spells.elim
  | cons item items =>
    obtain ⟨before, own, after, rest, rfl, isBefore, isAfter, isItem, others⟩ := spells
    simp only [length_append, length_cons] at enough
    obtain ⟨c, tail, isOwn, visible, -⟩ := isItem.first
    have start : At text (own ++ (after ++ (rest ++ ']' :: later))) (skipWs text pos) :=
      skipWs_stops before _ (by simpa using here) isBefore (by rw [isOwn]; exact stops_cons visible)
    have mark : ∃ c more, rest ++ ']' :: later = c :: more ∧ (c = ',' ∨ c = ']' ∨ c = '}') ∧
        Json.isWs c = false := by
      obtain ⟨-, rfl⟩ | ⟨more, rfl, -⟩ := others
      · exact ⟨']', later, rfl, by decide⟩
      · exact ⟨',', _, rfl, by decide⟩
    obtain ⟨c, more, split, isMark, visible⟩ := mark
    obtain ⟨next, parsed, there⟩ := accepts_value item [] turns isItem .nil
      (endsNumber_append isAfter (split ▸ endsNumber_cons _ isMark)) start (by
        simp only [length_append, length_cons]
        omega)
    have final := skipWs_stops _ _ there isAfter (by rw [split]; exact stops_cons visible)
    rw [parseItems, parsed, ok_bind]
    dsimp only
    obtain ⟨rfl, rfl⟩ | ⟨more, rfl, others⟩ := others
    · rw [if_neg, if_pos ((peek_eq_byte final (by decide)).mpr ⟨_, rfl⟩)]
      · exact ⟨_, rfl, At.step (c := ']') final (by decide)⟩
      · rw [peek_eq_byte final (by decide)]
        rintro ⟨_, same⟩
        cases same
    · rw [if_pos ((peek_eq_byte final (by decide)).mpr ⟨_, rfl⟩)]
      obtain ⟨stop, parsed, final⟩ := accepts_items items (front ++ [item]) turns others
        (At.step (c := ',') final (by decide)) (by
          simp only [length_append, length_cons] at enough ⊢
          omega)
      exact ⟨stop, by rw [parsed]; simp, final⟩

theorem accepts_members (members front : List (String × Json)) (turns : Nat)
    {inner later : List Char} {pos : Nat} (spells : SpellsMembers members inner)
    (here : At text (inner ++ '}' :: later) pos)
    (enough : 3 * (inner ++ '}' :: later).length + 2 ≤ turns) :
    ∃ stop, parseMembers text turns (skipWs text pos) front =
      .ok (.object (front ++ members), stop) ∧ At text later stop := by
  obtain ⟨turns, rfl⟩ : ∃ fewer, turns = fewer + 1 := ⟨turns - 1, by omega⟩
  cases members with
  | nil => exact spells.elim
  | cons member members =>
    obtain ⟨key, value⟩ := member
    obtain ⟨before, name, beforeColon, afterColon, own, after, rest, rfl, isBefore, isKey,
      isBeforeColon, isAfterColon, isAfter, isValue, others⟩ := spells
    simp only [length_append, length_cons] at enough
    have start : At text (name ++ (beforeColon ++ ':' :: (afterColon ++ (own ++ (after ++
        (rest ++ '}' :: later)))))) (skipWs text pos) :=
      skipWs_stops before _ (by simpa using here) isBefore (by
        obtain ⟨quoted, rfl, -⟩ := isKey
        exact stops_cons (by decide))
    obtain ⟨next, parsedKey, there⟩ := parseString_stops start isKey
    have quote : peek text (skipWs text pos) = some (byte '"') := by
      rw [peek_eq_byte start (by decide)]
      obtain ⟨quoted, rfl, -⟩ := isKey
      exact ⟨_, rfl⟩
    have colon := skipWs_stops _ _ there isBeforeColon (stops_cons (by decide))
    obtain ⟨c, tail, isOwn, visible, -⟩ := isValue.first
    have startValue := skipWs_stops _ _ (colon.step (by decide)) isAfterColon
      (by rw [isOwn]; exact stops_cons visible)
    have mark : ∃ c more, rest ++ '}' :: later = c :: more ∧ (c = ',' ∨ c = ']' ∨ c = '}') ∧
        Json.isWs c = false := by
      obtain ⟨-, rfl⟩ | ⟨more, rfl, -⟩ := others
      · exact ⟨'}', later, rfl, by decide⟩
      · exact ⟨',', _, rfl, by decide⟩
    obtain ⟨c, more, split, isMark, visible⟩ := mark
    obtain ⟨next', parsed, there⟩ := accepts_value value [] turns isValue .nil
      (endsNumber_append isAfter (split ▸ endsNumber_cons _ isMark)) startValue (by
        simp only [length_append, length_cons]
        omega)
    have final := skipWs_stops _ _ there isAfter (by rw [split]; exact stops_cons visible)
    rw [parseMembers, if_pos quote, parsedKey, ok_bind]
    dsimp only
    rw [if_pos ((peek_eq_byte colon (by decide)).mpr ⟨_, rfl⟩), parsed, ok_bind,
      String.ofList_toList]
    dsimp only
    obtain ⟨rfl, rfl⟩ | ⟨more, rfl, others⟩ := others
    · rw [if_neg, if_pos ((peek_eq_byte final (by decide)).mpr ⟨_, rfl⟩)]
      · exact ⟨_, rfl, At.step (c := '}') final (by decide)⟩
      · rw [peek_eq_byte final (by decide)]
        rintro ⟨_, same⟩
        cases same
    · rw [if_pos ((peek_eq_byte final (by decide)).mpr ⟨_, rfl⟩)]
      obtain ⟨stop, parsed, final⟩ := accepts_members members (front ++ [(key, value)])
        turns others (At.step (c := ',') final (by decide)) (by
          simp only [length_append, length_cons] at enough ⊢
          omega)
      exact ⟨stop, by rw [parsed]; simp, final⟩

end

theorem parse_complete {value : Json} {word : String} (spells : SpellsText value word.toList) :
    parse word = .ok value := by
  obtain ⟨before, spelled, after, split, isBefore, isAfter, isValue⟩ := spells
  obtain ⟨c, tail, isSpelled, visible, -⟩ := isValue.first
  have start : At word.toList (spelled ++ after) (skipWs word.toList 0) := by
    refine skipWs_stops before _ ?_ isBefore (by rw [isSpelled]; exact stops_cons visible)
    rw [<- append_assoc, <- split]
    exact At.start word.toList
  have ends : EndsNumber after := by
    simpa using endsNumber_append isAfter endsNumber_nil
  obtain ⟨next, parsed, there⟩ := accepts_value value []
    (3 * word.toList.length + 1) isValue .nil ends start (by
      have length := congrArg List.length split
      simp only [length_append] at length ⊢
      omega)
  have final := skipWs_stops after [] (by simpa using there) isAfter (by
    intro c later same
    cases same)
  unfold parse
  dsimp only
  rw [parsed, ok_bind]
  dsimp only
  rw [if_neg (not_not.mpr (final.eq_length_iff.mpr rfl))]

end InlaySql.Json
