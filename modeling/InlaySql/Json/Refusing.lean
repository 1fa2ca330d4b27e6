import InlaySql.Json.Accepting
import InlaySql.Json.Leaves
import InlaySql.Json.RealText

/-!
# Documents that are not read back

A double that is not finite is written as a name, which no value begins with. A document
that holds one is refused wherever it stands.
-/

namespace InlaySql.Json

open List Sql Eval Lib Lib.Utf8

variable {text : List Char}

/-- The names of the doubles that are not finite. -/
def Named (written : String) : Prop := written = "Inf" ∨ written = "-Inf" ∨ written = "NaN"

/-- A text of the grammar, or one of the names. -/
def Rendered (value : F64) (written : String) : Prop := RealText value written ∨ Named written

section

variable {written : String} (named : Named written)

include named

theorem Named.first : (∃ c later, written.toList = c :: later ∧ (c = 'I' ∨ c = 'N')) ∨
      ∃ later, written.toList = '-' :: 'I' :: later := by
  obtain rfl | rfl | rfl := named
  · exact .inl ⟨'I', ['n', 'f'], by simp, .inl rfl⟩
  · exact .inr ⟨['n', 'f'], by simp⟩
  · exact .inl ⟨'N', ['a', 'N'], by simp, .inr rfl⟩

theorem Named.not_number : ¬ Number written.toList := by
  rintro number
  obtain ⟨c, later, split, start⟩ := number.first
  obtain ⟨c', later', split', name⟩ | ⟨later', split'⟩ := named.first
  · rw [split] at split'
    cases split'
    rcases name with rfl | rfl <;> exact absurd start (by decide)
  · obtain ⟨minus, whole, fraction, exponent, text, sign, integral, -⟩ := number
    rw [split'] at text
    obtain rfl | ⟨first, digits, rfl, digit, -⟩ := integral
    · obtain rfl | rfl := sign <;> simp at text
    · obtain rfl | rfl := sign
      · simp only [nil_append, cons_append, List.cons.injEq] at text
        obtain ⟨rfl, -⟩ := text
        exact absurd digit (by decide)
      · simp only [nil_append, cons_append, List.cons.injEq, true_and] at text
        obtain ⟨rfl, -⟩ := text
        exact absurd digit (by decide)

end

theorem writeInto_first {doc : Json} (rendered : doc.Reals Rendered) :
    ∃ c later, writeInto doc = c :: later ∧ isWs c = false ∧ c ≠ ']' := by
  by_cases texted : doc.Reals RealText
  · exact (spells_write doc texted).first
  · cases doc with
    | real value written =>
      obtain good | named := rendered
      · exact absurd good texted
      · obtain ⟨c, later, split, name⟩ | ⟨later, split⟩ := named.first
        · refine ⟨c, later, split, ?_⟩
          rcases name with rfl | rfl <;> decide
        · exact ⟨'-', _, split, by decide⟩
    | array items => exact ⟨'[', _, rfl, by decide⟩
    | object members => exact ⟨'{', _, rfl, by decide⟩
    | _ => exact absurd trivial texted

theorem refuses_named {written : String} {later : List Char} {turns pos : Nat}
    (named : Named written) (here : At text (written.toList ++ later) pos) :
    parseValue text (turns + 1) pos = .error .parseError := by
  obtain ⟨c, tail, split, name⟩ | ⟨tail, split⟩ := named.first
  · rw [split] at here
    have visible : isWs c = false := by rcases name with rfl | rfl <;> decide
    obtain ⟨start, -, dispatched⟩ := parseValue_at [] turns here Ws.nil visible
    rw [dispatched]
    rcases name with rfl | rfl <;> simp [isDigit]
  · rw [split] at here
    obtain ⟨start, there, dispatched⟩ := parseValue_at (c := '-') [] turns here Ws.nil (by decide)
    have minus : peek text start = some (byte '-') := (peek_eq_byte there (by decide)).mpr ⟨_, rfl⟩
    have next := peek_cons (c := 'I') (there.step (by decide))
    have integer : scanInteger text start = .error .parseError := by
      rw [scanInteger, if_pos minus, next]
      dsimp only
      rw [if_neg (by decide), if_neg (by decide)]
    rw [dispatched, if_neg (by decide), if_neg (by decide), if_neg (by decide), if_neg (by decide),
      if_neg (by decide), if_neg (by decide), if_pos (.inl rfl), parseNumber, integer]
    rfl

mutual

theorem refuses_value (doc : Json) (later : List Char) (turns : Nat) {pos : Nat}
    (rendered : doc.Reals Rendered) (named : ¬ doc.Reals RealText)
    (here : At text (writeInto doc ++ later) pos)
    (enough : 3 * (writeInto doc ++ later).length + 1 ≤ turns) :
    parseValue text turns pos = .error .parseError := by
  obtain ⟨turns, rfl⟩ : ∃ fewer, turns = fewer + 1 := ⟨turns - 1, by omega⟩
  cases doc with
  | real value written =>
    obtain good | name := rendered
    · exact absurd good named
    · exact refuses_named name here
  | array items =>
    have nonempty : items ≠ [] := by
      rintro rfl
      exact named trivial
    rw [writeInto, cons_append, cons_append, append_assoc, singleton_append] at here
    simp only [writeInto, length_append, length_cons] at enough
    obtain ⟨start, there, dispatched⟩ := parseValue_at (c := '[') [] turns here Ws.nil (by decide)
    obtain ⟨turns, rfl⟩ : ∃ fewer, turns = fewer + 1 := ⟨turns - 1, by omega⟩
    obtain ⟨refused, visible⟩ := refuses_items items 0 [] (writeItems 0 items) turns nonempty rendered
      named (by simp) (there.step (by decide)) (by
        simp only [length_append, length_cons]
        omega)
    rw [dispatched, if_neg (by decide), if_pos rfl, parseArray, if_neg visible, refused]
  | object members =>
    have nonempty : members ≠ [] := by
      rintro rfl
      exact named trivial
    rw [writeInto, cons_append, cons_append, append_assoc, singleton_append] at here
    simp only [writeInto, length_append, length_cons] at enough
    obtain ⟨start, there, dispatched⟩ := parseValue_at (c := '{') [] turns here Ws.nil
      (by decide)
    obtain ⟨turns, rfl⟩ : ∃ fewer, turns = fewer + 1 := ⟨turns - 1, by omega⟩
    obtain ⟨refused, visible⟩ := refuses_members members 0 [] (writeMembers 0 members) turns
      nonempty rendered named (by simp) (there.step (by decide)) (by
        simp only [length_append, length_cons]
        omega)
    rw [dispatched, if_pos rfl, parseObject, if_neg visible, refused]
  | _ => exact absurd trivial named

theorem refuses_items (items : List Json) (index : Nat) (front : List Json) (word : List Char)
    (turns : Nat) (nonempty : items ≠ [])
    (rendered : RealsItems Rendered items) (named : ¬ RealsItems RealText items)
    {later : List Char} {pos : Nat}
    (written : writeItems index items = (if 0 < index then [','] else []) ++ word)
    (here : At text (word ++ ']' :: later) pos)
    (enough : 3 * (word ++ ']' :: later).length + 2 ≤ turns) :
    parseItems text turns (skipWs text pos) front = .error .parseError ∧
      peek text (skipWs text pos) ≠ some (byte ']') := by
  obtain ⟨turns, rfl⟩ : ∃ fewer, turns = fewer + 1 := ⟨turns - 1, by omega⟩
  cases items with
  | nil => exact absurd rfl nonempty
  | cons item items =>
    obtain ⟨isItem, others⟩ := rendered
    rw [writeItems, append_assoc] at written
    obtain rfl := append_cancel_left written
    obtain ⟨c, tail, first, visible, opens⟩ := writeInto_first isItem
    simp only [append_assoc] at here
    have start := skipWs_still here (by rw [first]; exact stops_cons visible)
    simp only [length_append, length_cons] at enough
    refine ⟨?_, ?_⟩
    · rw [parseItems]
      by_cases texted : item.Reals RealText
      · have more : ¬ RealsItems RealText items := fun rest => named ⟨texted, rest⟩
        have nonempty : items ≠ [] := by
          rintro rfl
          exact more trivial
        obtain ⟨word, writtenItems, -⟩ : ∃ word, writeItems (index + 1) items = ',' :: word ∧
            True := by
          cases items with
          | nil => exact absurd rfl nonempty
          | cons next items => exact ⟨writeInto next ++ writeItems (index + 2) items, by simp [writeItems], trivial⟩
        rw [writtenItems] at start enough
        obtain ⟨stop, parsed, there⟩ := accepts_value item.reread [] turns
          (spells_write item texted) Ws.nil
          (endsNumber_cons (c := ',') (word ++ ']' :: later) (.inl rfl)) start (by
            simp only [length_append, length_cons] at enough ⊢
            omega)
        have comma := skipWs_still there (stops_cons (by decide))
        obtain ⟨refused, -⟩ := refuses_items items (index + 1) (front ++ [item.reread]) word
          turns nonempty others more (by simp [writtenItems])
          (comma.step (by decide)) (by
            simp only [length_append, length_cons] at enough ⊢
            omega)
        rw [parsed, ok_bind]
        dsimp only
        rw [if_pos ((peek_eq_byte comma (by decide)).mpr ⟨_, rfl⟩), refused]
      · rw [refuses_value item _ _ isItem texted start (by
          simp only [length_append, length_cons]
          omega)]
        rfl
    · rw [first] at start
      rw [ne_eq, peek_eq_byte start (by decide)]
      rintro ⟨_, same⟩
      exact opens (List.cons.inj same).1

theorem refuses_members (members : List (String × Json)) (index : Nat)
    (front : List (String × Json)) (word : List Char) (turns : Nat) (nonempty : members ≠ [])
    (rendered : RealsMembers Rendered members) (named : ¬ RealsMembers RealText members)
    {later : List Char} {pos : Nat}
    (written : writeMembers index members = (if 0 < index then [','] else []) ++ word)
    (here : At text (word ++ '}' :: later) pos)
    (enough : 3 * (word ++ '}' :: later).length + 2 ≤ turns) :
    parseMembers text turns (skipWs text pos) front = .error .parseError ∧
      peek text (skipWs text pos) ≠ some (byte '}') := by
  obtain ⟨turns, rfl⟩ : ∃ fewer, turns = fewer + 1 := ⟨turns - 1, by omega⟩
  cases members with
  | nil => exact absurd rfl nonempty
  | cons member members =>
    obtain ⟨key, value⟩ := member
    obtain ⟨isValue, others⟩ := rendered
    rw [writeMembers, append_assoc, append_assoc] at written
    obtain rfl := append_cancel_left written
    obtain ⟨c, tail, first, visible, -⟩ := writeInto_first isValue
    have isKey := spellsString_write key
    obtain ⟨quoted, name, -⟩ := isKey
    simp only [append_assoc, cons_append] at here
    have start := skipWs_still here (by rw [name]; exact stops_cons (by decide))
    have quote : peek text (skipWs text pos) = some (byte '"') := by
      rw [peek_eq_byte start (by decide), name]
      exact ⟨_, rfl⟩
    simp only [length_append, length_cons] at enough
    refine ⟨?_, by rw [quote]; decide⟩
    obtain ⟨next, parsedKey, there⟩ := parseString_stops start (spellsString_write key)
    have colon := skipWs_still there (stops_cons (by decide))
    have startValue := skipWs_still (colon.step (by decide))
      (by rw [first]; exact stops_cons visible)
    rw [parseMembers, if_pos quote, parsedKey, ok_bind]
    dsimp only
    rw [if_pos ((peek_eq_byte colon (by decide)).mpr ⟨_, rfl⟩)]
    by_cases texted : value.Reals RealText
    · have more : ¬ RealsMembers RealText members := fun rest => named ⟨texted, rest⟩
      have nonempty : members ≠ [] := by
        rintro rfl
        exact more trivial
      obtain ⟨word, writtenMembers, -⟩ : ∃ word, writeMembers (index + 1) members = ',' :: word ∧
          True := by
        cases members with
        | nil => exact absurd rfl nonempty
        | cons next members =>
          obtain ⟨key, value⟩ := next
          exact ⟨writeString key ++ ':' :: writeInto value ++ writeMembers (index + 2) members,
            by simp [writeMembers], trivial⟩
      rw [writtenMembers] at startValue enough
      obtain ⟨stop, parsed, there⟩ := accepts_value value.reread [] turns
        (spells_write value texted) Ws.nil
        (endsNumber_cons (c := ',') (word ++ '}' :: later) (.inl rfl)) startValue (by
          simp only [length_append, length_cons] at enough ⊢
          omega)
      have comma := skipWs_still there (stops_cons (by decide))
      obtain ⟨refused, -⟩ := refuses_members members (index + 1)
        (front ++ [(String.ofList key.toList, value.reread)]) word turns nonempty others more
        (by simp [writtenMembers]) (comma.step (by decide)) (by
          simp only [length_append, length_cons] at enough ⊢
          omega)
      rw [parsed, ok_bind]
      dsimp only
      rw [if_pos ((peek_eq_byte comma (by decide)).mpr ⟨_, rfl⟩), refused]
    · rw [refuses_value value _ _ isValue texted startValue (by
        simp only [length_append, length_cons]
        omega)]
      rfl

end

theorem texted_of_parse (doc : Json) {value : Json} (rendered : doc.Reals Rendered)
    (parsed : parse (write doc) = .ok value) : doc.Reals RealText := by
  by_contra named
  obtain ⟨c, tail, first, visible, -⟩ := writeInto_first rendered
  have all : (write doc).toList = writeInto doc := String.toList_ofList
  have start : At (write doc).toList (writeInto doc) (skipWs (write doc).toList 0) := by
    refine skipWs_still ?_ (by rw [first]; exact stops_cons visible)
    rw [all]
    exact At.start _
  have refused := refuses_value doc [] (3 * (write doc).toList.length + 1)
    rendered named (by simpa using start) (by rw [all, append_nil])
  unfold parse at parsed
  dsimp only at parsed
  rw [refused] at parsed
  cases parsed

theorem rendered_realToText (value : F64) : Rendered value (realToText value) ∧
      (RealText value (realToText value) ↔ isFinite value = true) := by
  by_cases finite : isFinite value = true
  · have good := realText_realToText finite
    exact ⟨.inl good, by simp [good, finite]⟩
  · have named : Named (realToText value) := by
      unfold realToText formatG Named
      simp only [Bool.not_eq_true] at finite
      simp only [finite, Bool.not_false, if_true]
      split_ifs <;> simp
    refine ⟨.inr named, fun good => absurd good.1 named.not_number, fun good => absurd good finite⟩

end InlaySql.Json
