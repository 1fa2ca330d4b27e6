import InlaySql.Json.ReadingStrings

/-!
# Reading values

Whatever the parser reads is spelled by the grammar, and it never reads past the text or
runs out of turns: a value takes at most three turns for each of its characters.
-/

namespace InlaySql.Json

open List Sql Lib Lib.Utf8

variable {text rest : List Char} {pos : Nat}

/-! ## What is spelled -/

variable {word before : List Char}

theorem spells_numberOf (number : Number word) : Spells (numberOf word) word := by
  unfold numberOf
  cases readEq : readI64 word with
  | some value => exact ⟨number, readEq⟩
  | none => exact ⟨number, readEq, rfl, String.toList_ofList⟩

theorem Number.ne_nil (number : Number word) : word ≠ [] := by
  obtain ⟨minus, whole, fraction, exponent, rfl, -, integral, -, -⟩ := number
  obtain rfl | ⟨first, digits, rfl, -⟩ := integral <;> simp

theorem Spells.ne_nil {value : Json} (spells : Spells value word) : word ≠ [] := by
  cases value with
  | null => simp [Spells] at spells; simp [spells]
  | bool value => cases value <;> simp [Spells] at spells <;> simp [spells]
  | int value => exact spells.1.ne_nil
  | real value written => exact spells.1.ne_nil
  | text value =>
    obtain ⟨quoted, rfl, -⟩ := spells
    simp
  | array items =>
    obtain ⟨inner, rfl, -⟩ := spells
    simp
  | object members =>
    obtain ⟨inner, rfl, -⟩ := spells
    simp

theorem SpellsItems.pad {items : List Json} (ws : Ws before) (spells : SpellsItems items word) :
    SpellsItems items (before ++ word) := by
  cases items with
  | nil => exact spells.elim
  | cons item items =>
    obtain ⟨own, spelled, after, more, rfl, isOwn, isAfter, isItem, others⟩ := spells
    exact ⟨before ++ own, spelled, after, more, by simp, ws.append isOwn, isAfter, isItem, others⟩

theorem SpellsMembers.pad {members : List (String × Json)} (ws : Ws before)
    (spells : SpellsMembers members word) : SpellsMembers members (before ++ word) := by
  cases members with
  | nil => exact spells.elim
  | cons member members =>
    obtain ⟨own, name, beforeColon, afterColon, spelled, after, more, rfl, isOwn, others⟩ := spells
    exact ⟨before ++ own, name, beforeColon, afterColon, spelled, after, more, by simp,
      ws.append isOwn, others⟩

/-- A value with whitespace before it. -/
def SpellsPadded (value : Json) (word : List Char) : Prop :=
  ∃ before spelled, word = before ++ spelled ∧ Ws before ∧ Spells value spelled

/-- The rest of an array, after the elements read before. -/
def EndsItems (items : List Json) (value : Json) (word : List Char) : Prop :=
  ∃ others inner, word = inner ++ [']'] ∧ SpellsItems others inner ∧ value = .array (items ++ others)

/-- The rest of an object, likewise. -/
def EndsMembers (members : List (String × Json)) (value : Json) (word : List Char) : Prop :=
  ∃ others inner, word = inner ++ ['}'] ∧ SpellsMembers others inner ∧
    value = .object (members ++ others)

/-! ## One part at a time -/

theorem skipWs_split (here : At text rest pos) :
    ∃ ws later, rest = ws ++ later ∧ Ws ws ∧ At text later (skipWs text pos) := by
  obtain ⟨ws, split, isWs⟩ := dropWhile_split isWs rest
  exact ⟨ws, _, split, isWs, skipWs_at here⟩

theorem literal_reads (ascii : ∀ c ∈ word, c.toNat < 128) (value : Json) (here : At text rest pos) :
    Reads text (fun read spelled => read = value ∧ spelled = word) rest
      (literal text pos word value) := by
  unfold literal
  dsimp only
  rw [here.bytes]
  by_cases same : (encode rest).take (encode word).length = encode word
  · obtain ⟨later, rfl⟩ := (take_encode_iff ascii rest).mp same
    rw [if_pos same]
    exact .read rfl ⟨rfl, rfl⟩ here.past
  · rw [if_neg same]
    exact .refused

theorem Reads.imp {α : Type} {good better : α -> List Char -> Prop} {result : Except Halt (α × Nat)}
    (reads : Reads text good rest result) (imp : ∀ value spelled, good value spelled ->
      better value spelled) : Reads text better rest result := by
  cases reads with
  | refused => exact .refused
  | read split spells there => exact .read split (imp _ _ spells) there

section Steps

variable (text)

def ValuesRead (turns : Nat) : Prop :=
  ∀ {rest pos}, At text rest pos -> 3 * rest.length + 1 ≤ turns ->
    Reads text SpellsPadded rest (parseValue text turns pos)

def ArraysRead (turns : Nat) : Prop :=
  ∀ {rest pos}, At text ('[' :: rest) pos -> 3 * rest.length + 3 ≤ turns ->
    Reads text Spells ('[' :: rest) (parseArray text turns pos)

def ItemsRead (turns : Nat) : Prop :=
  ∀ {rest pos} (items), At text rest pos -> 3 * rest.length + 2 ≤ turns ->
    Reads text (EndsItems items) rest (parseItems text turns pos items)

def ObjectsRead (turns : Nat) : Prop :=
  ∀ {rest pos}, At text ('{' :: rest) pos -> 3 * rest.length + 3 ≤ turns ->
    Reads text Spells ('{' :: rest) (parseObject text turns pos)

def MembersRead (turns : Nat) : Prop :=
  ∀ {rest pos} (members), At text rest pos -> 3 * rest.length + 2 ≤ turns ->
    Reads text (EndsMembers members) rest (parseMembers text turns pos members)

end Steps

variable {turns : Nat}

theorem valuesRead_succ (arrays : ArraysRead text turns) (objects : ObjectsRead text turns) :
    ValuesRead text (turns + 1) := by
  intro rest pos here enough
  obtain ⟨ws, later, rfl, isWs, there⟩ := skipWs_split here
  have pad {value : Except Halt (Json × Nat)} (reads : Reads text Spells later value) :
      Reads text SpellsPadded (ws ++ later) value := by
    cases reads with
    | refused => exact .refused
    | read split spells final =>
      exact .read (by rw [split, append_assoc]) ⟨ws, _, rfl, isWs, spells⟩ final
  rw [length_append] at enough
  unfold parseValue
  dsimp only
  generalize skipWs text pos = pos at there
  cases later with
  | nil =>
    rw [peek_nil there]
    exact .refused
  | cons c later =>
    rw [length_cons] at enough
    rw [peek_cons there]
    dsimp only
    simp only [lead_eq_byte (d := '{') (by decide), lead_eq_byte (d := '[') (by decide),
      lead_eq_byte (d := '"') (by decide), lead_eq_byte (d := 't') (by decide),
      lead_eq_byte (d := 'f') (by decide), lead_eq_byte (d := 'n') (by decide)]
    apply pad
    split
    · rename_i brace
      subst brace
      exact objects there (by omega)
    split
    · rename_i bracket
      subst bracket
      exact arrays there (by omega)
    split
    · rename_i quote
      subst quote
      have read := parseString_reads there
      cases stringEq : parseString text pos with
      | error halt =>
        rw [stringEq] at read
        cases read
        exact .refused
      | ok result =>
        rw [stringEq] at read
        cases read with
        | read split spells final => exact .read split spells final
    split
    · exact (literal_reads (by simp) _ there).imp fun value spelled same => by
        obtain ⟨rfl, rfl⟩ := same
        simp [Spells]
    split
    · exact (literal_reads (by simp) _ there).imp fun value spelled same => by
        obtain ⟨rfl, rfl⟩ := same
        simp [Spells]
    split
    · exact (literal_reads (by simp) _ there).imp fun value spelled same => by
        obtain ⟨rfl, rfl⟩ := same
        simp [Spells]
    split
    · refine (parseNumber_reads there).imp fun value spelled number => ?_
      rw [number.2]
      exact spells_numberOf number.1
    · exact .refused

theorem arraysRead_succ (items : ItemsRead text turns) : ArraysRead text (turns + 1) := by
  intro rest pos here enough
  obtain ⟨ws, later, rfl, isWs, there⟩ := skipWs_split (here.step (by decide))
  rw [length_append] at enough
  unfold parseArray
  dsimp only
  generalize skipWs text (pos + 1) = pos at there
  split
  · rename_i closed
    obtain ⟨later, rfl⟩ := (peek_eq_byte there (by decide)).mp closed
    exact .read (s := '[' :: ws ++ [']']) (by simp) ⟨ws, rfl, .inl ⟨rfl, isWs⟩⟩
      (there.step (by decide))
  · have read := items [] there (by omega)
    generalize parseItems text turns pos [] = result at read
    cases read with
    | refused => exact .refused
    | read split ends final =>
      obtain ⟨others, inner, rfl, spells, rfl⟩ := ends
      subst split
      exact .read (s := '[' :: (ws ++ inner) ++ [']']) (by simp)
        ⟨ws ++ inner, rfl, .inr (spells.pad isWs)⟩ final

theorem itemsRead_succ (values : ValuesRead text turns) (items : ItemsRead text turns) :
    ItemsRead text (turns + 1) := by
  intro rest pos before here enough
  unfold parseItems
  have read := values here (by omega)
  cases valueEq : parseValue text turns pos with
  | error halt =>
    rw [valueEq] at read
    cases read
    exact .refused
  | ok result =>
    rw [valueEq] at read
    cases read with
    | @read value spelled later next split padded there =>
      obtain ⟨own, word, rfl, isOwn, spells⟩ := padded
      obtain ⟨after, tail, rfl, isAfter, final⟩ := skipWs_split there
      subst split
      have room := length_pos_iff.mpr spells.ne_nil
      rw [ok_bind]
      dsimp only
      split
      · rename_i comma
        obtain ⟨tail, rfl⟩ := (peek_eq_byte final (by decide)).mp comma
        obtain ⟨ws, more, rfl, isWs, start⟩ := skipWs_split (final.step (by decide))
        have read := items (before ++ [value]) start (by
          simp only [length_append, length_cons] at enough
          omega)
        generalize parseItems text turns (skipWs text (skipWs text next + 1))
          (before ++ [value]) = result at read
        cases read with
        | refused => exact .refused
        | read split ends stop =>
          obtain ⟨others, inner, rfl, others', rfl⟩ := ends
          subst split
          refine .read (s := own ++ word ++ after ++ ',' :: (ws ++ inner) ++ [']'])
            (by simp) ⟨value :: others, _, rfl, ?_, by simp⟩ stop
          exact ⟨own, word, after, _, rfl, isOwn, isAfter, spells, .inr ⟨_, rfl, others'.pad isWs⟩⟩
      split
      · rename_i closed
        obtain ⟨tail, rfl⟩ := (peek_eq_byte final (by decide)).mp closed
        refine .read (s := own ++ word ++ after ++ [] ++ [']']) (by simp)
          ⟨[value], _, rfl, ?_, rfl⟩ (final.step (by decide))
        exact ⟨own, word, after, [], rfl, isOwn, isAfter, spells, .inl ⟨rfl, rfl⟩⟩
      · exact .refused

theorem objectsRead_succ (members : MembersRead text turns) : ObjectsRead text (turns + 1) := by
  intro rest pos here enough
  obtain ⟨ws, later, rfl, isWs, there⟩ := skipWs_split (here.step (by decide))
  rw [length_append] at enough
  unfold parseObject
  dsimp only
  generalize skipWs text (pos + 1) = pos at there
  split
  · rename_i closed
    obtain ⟨later, rfl⟩ := (peek_eq_byte there (by decide)).mp closed
    exact .read (s := '{' :: ws ++ ['}']) (by simp) ⟨ws, rfl, .inl ⟨rfl, isWs⟩⟩
      (there.step (by decide))
  · have read := members [] there (by omega)
    generalize parseMembers text turns pos [] = result at read
    cases read with
    | refused => exact .refused
    | read split ends final =>
      obtain ⟨others, inner, rfl, spells, rfl⟩ := ends
      subst split
      exact .read (s := '{' :: (ws ++ inner) ++ ['}']) (by simp)
        ⟨ws ++ inner, rfl, .inr (spells.pad isWs)⟩ final

theorem membersRead_succ (values : ValuesRead text turns) (members : MembersRead text turns) :
    MembersRead text (turns + 1) := by
  intro rest pos before here enough
  unfold parseMembers
  split
  rotate_left
  · exact .refused
  rename_i quote
  obtain ⟨rest, rfl⟩ := (peek_eq_byte here (by decide)).mp quote
  have readKey := parseString_reads here
  cases keyEq : parseString text pos with
  | error halt =>
    rw [keyEq] at readKey
    cases readKey
    exact .refused
  | ok result =>
    rw [keyEq] at readKey
    cases readKey with
    | @read key name later next split isKey there =>
      obtain ⟨beforeColon, later, rfl, isBeforeColon, atColon⟩ := skipWs_split there
      rw [ok_bind]
      dsimp only
      split
      rotate_left
      · exact .refused
      rename_i colon
      obtain ⟨later, rfl⟩ := (peek_eq_byte atColon (by decide)).mp colon
      obtain ⟨afterColon, later, rfl, isAfterColon, start⟩ :=
        skipWs_split (atColon.step (by decide))
      rw [split] at here enough ⊢
      simp only [length_append, length_cons] at enough
      have read := values start (by omega)
      generalize skipWs text (skipWs text next + 1) = pos at read
      cases valueEq : parseValue text turns pos with
      | error halt =>
        rw [valueEq] at read
        cases read
        exact .refused
      | ok result =>
        rw [valueEq] at read
        cases read with
        | @read value spelled later next split padded there =>
          obtain ⟨own, word, rfl, isOwn, spells⟩ := padded
          obtain ⟨after, tail, rfl, isAfter, final⟩ := skipWs_split there
          subst split
          simp only [length_append] at enough
          have isAfterColon := isAfterColon.append isOwn
          rw [ok_bind]
          dsimp only
          split
          · rename_i comma
            obtain ⟨tail, rfl⟩ := (peek_eq_byte final (by decide)).mp comma
            obtain ⟨ws, more, rfl, isWs, start⟩ := skipWs_split (final.step (by decide))
            have read := members (before ++ [(String.ofList key, value)]) start (by
              simp only [length_append, length_cons] at enough
              omega)
            generalize parseMembers text turns (skipWs text (skipWs text next + 1))
              (before ++ [(String.ofList key, value)]) = result at read
            cases read with
            | refused => exact .refused
            | read split ends stop =>
              obtain ⟨others, inner, rfl, others', rfl⟩ := ends
              subst split
              refine .read (s := [] ++ name ++ beforeColon ++ ':' ::
                (afterColon ++ own) ++ word ++ after ++ ',' :: (ws ++ inner) ++ ['}'])
                (by simp) ⟨(String.ofList key, value) :: others, _, rfl, ?_, by simp⟩ stop
              exact ⟨[], name, beforeColon, afterColon ++ own, word, after, _, rfl, .nil,
                isKey, isBeforeColon, isAfterColon, isAfter, spells,
                .inr ⟨_, rfl, others'.pad isWs⟩⟩
          split
          · rename_i closed
            obtain ⟨tail, rfl⟩ := (peek_eq_byte final (by decide)).mp closed
            refine .read (s := [] ++ name ++ beforeColon ++ ':' ::
              (afterColon ++ own) ++ word ++ after ++ [] ++ ['}']) (by simp)
              ⟨[(String.ofList key, value)], _, rfl, ?_, rfl⟩ (final.step (by decide))
            exact ⟨[], name, beforeColon, afterColon ++ own, word, after, [], rfl, .nil,
              isKey, isBeforeColon, isAfterColon, isAfter, spells, .inl ⟨rfl, rfl⟩⟩
          · exact .refused

/-! ## Every part -/

theorem reads_core (text : List Char) (turns : Nat) :
    ValuesRead text turns ∧ ArraysRead text turns ∧ ItemsRead text turns ∧
      ObjectsRead text turns ∧ MembersRead text turns := by
  induction turns with
  | zero =>
    refine ⟨?_, ?_, ?_, ?_, ?_⟩
    · intro rest pos here enough
      omega
    · intro rest pos here enough
      omega
    · intro rest pos items here enough
      omega
    · intro rest pos here enough
      omega
    · intro rest pos members here enough
      omega
  | succ turns ih =>
    obtain ⟨values, arrays, items, objects, members⟩ := ih
    exact ⟨valuesRead_succ arrays objects, arraysRead_succ items, itemsRead_succ values items,
      objectsRead_succ members, membersRead_succ values members⟩

theorem parse_sound (word : String) :
    parse word = .error .parseError ∨ ∃ value, parse word = .ok value ∧
      SpellsText value word.toList := by
  obtain ⟨ws, later, split, isWs, start⟩ := skipWs_split (At.start word.toList)
  have enough : 3 * later.length + 1 ≤ 3 * word.toList.length + 1 := by
    have length := congrArg List.length split
    rw [length_append] at length
    omega
  have read := (reads_core word.toList _).1 start enough
  unfold parse
  dsimp only
  generalize parseValue word.toList (3 * word.toList.length + 1) (skipWs word.toList 0) = result
    at read
  cases read with
  | refused => exact .inl rfl
  | read tailSplit padded there =>
    obtain ⟨own, spelled, rfl, isOwn, spells⟩ := padded
    obtain ⟨after, rest, rfl, isAfter, final⟩ := skipWs_split there
    rw [ok_bind]
    dsimp only
    split
    · exact .inl rfl
    · rename_i atEnd
      have nothing := final.eq_length_iff.mp (not_not.mp atEnd)
      refine .inr ⟨_, rfl, ws ++ own, spelled, after, ?_, isWs.append isOwn, isAfter, spells⟩
      rw [split, tailSplit, nothing]
      simp

end InlaySql.Json
