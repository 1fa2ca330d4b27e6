import Mathlib

/-!
# Entries that are marked, never moved

A list grows at its end. An entry that is no longer wanted is marked deleted and stays where
it is, so positions last as long as the list does. A register says where the live entry of an
id is; it is exact when it names the live entries and no others, and then no id has two.
-/

namespace InlaySql.Lib

open List Option

/-- One entry: whose it is, what it holds, and whether it is marked deleted. -/
structure Entry (ι α : Type*) where
  id : ι
  value : α
  deleted : Bool
  deriving DecidableEq, Repr

namespace Entry

variable {ι α : Type*}

/-- The entry, marked deleted. -/
def mark (self : Entry ι α) : Entry ι α := { self with deleted := true }

/-- The register names the live entries, each under its id, and nothing else. -/
def Registers (entries : List (Entry ι α)) (register : ι -> Option Nat) : Prop :=
  ∀ id position, register id = some position ↔
    ∃ value, entries[position]? = some ⟨id, value, false⟩

/-- What the live entry of an id holds. -/
def held (entries : List (Entry ι α)) (register : ι -> Option Nat) (id : ι) : Option α :=
  (register id).bind fun position => (entries[position]?).map value

variable {entries : List (Entry ι α)} {register : ι -> Option Nat} {id : ι} {position : Nat}

theorem registers_nil : Registers ([] : List (Entry ι α)) fun _ => none := by
  intro id position
  simp

section

variable (exact : Registers entries register)

include exact

theorem Registers.lt (found : register id = some position) : position < entries.length := by
  obtain ⟨value, isEntry⟩ := (exact id position).mp found
  exact (List.getElem?_eq_some_iff.mp isEntry).1

theorem Registers.held_isSome : (held entries register id).isSome = (register id).isSome := by
  cases found : register id with
  | none => simp [held, found]
  | some position =>
    obtain ⟨value, isEntry⟩ := (exact id position).mp found
    simp [held, found, isEntry]

theorem Registers.id_eq {other : ι} (found : register id = some position)
    (foundOther : register other = some position) :
    id = other := by
  obtain ⟨_, isEntry⟩ := (exact id position).mp found
  obtain ⟨_, isOther⟩ := (exact other position).mp foundOther
  rw [isEntry] at isOther
  cases isOther
  rfl

end

theorem getElem?_mark (entries : List (Entry ι α)) (position place : Nat) :
    (entries.modify position Entry.mark)[place]? =
      if position = place then (entries[place]?).map Entry.mark else entries[place]? := by
  rw [List.getElem?_modify]
  split <;> simp

section

variable [DecidableEq ι]

section

variable (exact : Registers entries register)

include exact

theorem Registers.mark (found : register id = some position) :
    Registers (entries.modify position Entry.mark)
      fun other => if other = id then none else register other := by
  intro other place
  by_cases same : other = id
  · subst same
    simp only [if_true, reduceCtorEq, false_iff, not_exists]
    intro value isEntry
    rw [getElem?_mark] at isEntry
    by_cases here : position = place
    · subst here
      obtain ⟨held, isHeld⟩ := (exact other position).mp found
      simp [isHeld, Entry.mark] at isEntry
    · rw [if_neg here] at isEntry
      exact here (Option.some.inj (found.symm.trans ((exact other place).mpr ⟨value, isEntry⟩)))
  · simp only [if_neg same]
    have elsewhere : register other = some place -> position ≠ place := by
      rintro foundOther rfl
      exact same (exact.id_eq foundOther found)
    constructor
    · intro foundOther
      obtain ⟨value, isEntry⟩ := (exact other place).mp foundOther
      exact ⟨value, by rw [getElem?_mark, if_neg (elsewhere foundOther), isEntry]⟩
    · rintro ⟨value, isEntry⟩
      rw [getElem?_mark] at isEntry
      by_cases here : position = place
      · rw [if_pos here] at isEntry
        obtain ⟨entry, -, marked⟩ := map_eq_some_iff.mp isEntry
        cases marked
      · rw [if_neg here] at isEntry
        exact (exact other place).mpr ⟨value, isEntry⟩

theorem Registers.held_mark (found : register id = some position) (other : ι) :
    held (entries.modify position Entry.mark)
      (fun other => if other = id then none else register other) other =
      if other = id then none else held entries register other := by
  by_cases same : other = id
  · simp [held, same]
  · rw [if_neg same, held, if_neg same, held]
    cases foundOther : register other with
    | none => rfl
    | some place =>
      have elsewhere : position ≠ place := by
        rintro rfl
        exact same (exact.id_eq foundOther found)
      simp [getElem?_mark, elsewhere]

theorem Registers.push (absent : register id = none) (value : α) :
    Registers (entries ++ [⟨id, value, false⟩])
      fun other => if other = id then some entries.length else register other := by
  intro other place
  by_cases same : other = id
  · subst same
    simp only [if_true, Option.some.injEq]
    constructor
    · rintro rfl
      exact ⟨value, by simp⟩
    · rintro ⟨found, isEntry⟩
      rcases Nat.lt_trichotomy place entries.length with before | rfl | after
      · rw [getElem?_append_left before] at isEntry
        rw [(exact other place).mpr ⟨found, isEntry⟩] at absent
        cases absent
      · rfl
      · rw [getElem?_eq_none (by simp; omega)] at isEntry
        cases isEntry
  · simp only [if_neg same, exact other place]
    constructor
    · rintro ⟨found, isEntry⟩
      have before := (List.getElem?_eq_some_iff.mp isEntry).1
      exact ⟨found, by rw [getElem?_append_left before, isEntry]⟩
    · rintro ⟨found, isEntry⟩
      rcases Nat.lt_trichotomy place entries.length with before | rfl | after
      · rw [getElem?_append_left before] at isEntry
        exact ⟨found, isEntry⟩
      · simp only [getElem?_concat_length, Option.some.injEq, Entry.mk.injEq] at isEntry
        exact absurd isEntry.1.symm same
      · rw [getElem?_eq_none (by simp; omega)] at isEntry
        cases isEntry

theorem Registers.held_push (value : α) (other : ι) : held (entries ++ [⟨id, value, false⟩])
      (fun other => if other = id then some entries.length else register other) other =
      if other = id then some value else held entries register other := by
  by_cases same : other = id
  · simp [held, same]
  · rw [if_neg same, held, if_neg same, held]
    cases found : register other with
    | none => rfl
    | some place => simp [getElem?_append_left (exact.lt found)]

end

section

variable {entry : Entry ι α} (exact : Registers (entries ++ [entry]) register)

include exact

theorem Registers.pop : Registers entries fun other =>
      if entry.deleted = false ∧ other = entry.id then none else register other := by
  intro other place
  have before (inRange : place < entries.length) :
      (entries ++ [entry])[place]? = entries[place]? := getElem?_append_left inRange
  have last : (entries ++ [entry])[entries.length]? = some entry := by simp
  dsimp only
  split
  · rename_i isLast
    obtain ⟨live, rfl⟩ := isLast
    simp only [reduceCtorEq, false_iff, not_exists]
    intro value isEntry
    have inRange := (List.getElem?_eq_some_iff.mp isEntry).1
    have isPlace := (exact entry.id place).mpr ⟨value, by rw [before inRange, isEntry]⟩
    have isEnd := (exact entry.id entries.length).mpr ⟨entry.value, by rw [last, <- live]⟩
    rw [isPlace] at isEnd
    cases isEnd
    exact Nat.lt_irrefl _ inRange
  · rename_i notLast
    rw [exact other place]
    constructor
    · rintro ⟨value, isEntry⟩
      have inRange := (List.getElem?_eq_some_iff.mp isEntry).1
      rw [length_append, length_singleton] at inRange
      rcases Nat.lt_succ_iff_lt_or_eq.mp inRange with inside | rfl
      · exact ⟨value, by rw [<- before inside, isEntry]⟩
      · rw [last] at isEntry
        cases isEntry
        exact absurd ⟨rfl, rfl⟩ notLast
    · rintro ⟨value, isEntry⟩
      have inRange := (List.getElem?_eq_some_iff.mp isEntry).1
      exact ⟨value, by rw [before inRange, isEntry]⟩

theorem Registers.held_pop (id : ι) : held (entries ++ [entry]) register id =
      if entry.deleted = false ∧ id = entry.id then some entry.value
      else held entries (fun other =>
        if entry.deleted = false ∧ other = entry.id then none else register other) id := by
  have last : (entries ++ [entry])[entries.length]? = some entry := by simp
  split
  · rename_i isLast
    obtain ⟨live, rfl⟩ := isLast
    have isEnd := (exact entry.id entries.length).mpr ⟨entry.value, by rw [last, <- live]⟩
    rw [held, isEnd, bind_some, last, map_some]
  · rename_i notLast
    rw [held, held, if_neg notLast]
    cases found : register id with
    | none => rfl
    | some position =>
      have inside := exact.pop.lt (show (if entry.deleted = false ∧ id = entry.id then none
        else register id) = some position by rw [if_neg notLast, found])
      rw [bind_some, bind_some, getElem?_append_left inside]

end

theorem filter_eq_singleton {β : Type*} {items : List β} {kind : β → Bool} {item : β} (isItem : items[position]? = some item) (isKind : kind item = true)
    (alone : ∀ place other, items[place]? = some other -> kind other = true -> place = position) :
    items.filter kind = [item] := by
  induction items generalizing position with
  | nil => cases isItem
  | cons head tail ih =>
    cases position with
    | zero =>
      cases isItem
      rw [filter_cons_of_pos isKind, filter_eq_nil_iff.mpr]
      intro other member isOther
      obtain ⟨place, isPlace⟩ := mem_iff_getElem?.mp member
      cases alone (place + 1) other isPlace isOther
    | succ position =>
      have unlike : ¬kind head = true := fun isHead => by cases alone 0 head rfl isHead
      rw [filter_cons_of_neg unlike]
      exact ih isItem fun place other isOther isKind =>
        Nat.succ.inj (alone (place + 1) other isOther isKind)

theorem Registers.filter_live (exact : Registers entries register) (id : ι) :
    (entries.filter fun entry => !entry.deleted && decide (entry.id = id)).map value =
      (held entries register id).toList := by
  have live : ∀ {place other}, entries[place]? = some other ->
      (!other.deleted && decide (other.id = id)) = true -> register id = some place := by
    intro place other isOther isLive
    obtain ⟨owner, value, deleted⟩ := other
    obtain ⟨rfl, rfl⟩ : deleted = false ∧ owner = id := by simpa using isLive
    exact (exact owner place).mpr ⟨value, isOther⟩
  cases found : register id with
  | none =>
    rw [held, found, filter_eq_nil_iff.mpr]
    · rfl
    intro other member isLive
    obtain ⟨place, isPlace⟩ := mem_iff_getElem?.mp member
    rw [live isPlace isLive] at found
    cases found
  | some position =>
    obtain ⟨value, isEntry⟩ := (exact id position).mp found
    rw [filter_eq_singleton isEntry (by simp), held, found, bind_some, isEntry]
    · rfl
    intro place other isOther isLive
    exact Option.some.inj ((live isOther isLive).symm.trans found)

end

/-- How many entries are marked. -/
def marked (entries : List (Entry ι α)) : Nat := entries.countP (·.deleted)

theorem marked_push (value : α) : marked (entries ++ [⟨id, value, false⟩]) = marked entries := by
  simp [marked]

theorem marked_modify {entry : Entry ι α} (isEntry : entries[position]? = some entry)
    (live : entry.deleted = false) :
    marked (entries.modify position Entry.mark) = marked entries + 1 := by
  induction entries generalizing position with
  | nil => cases isEntry
  | cons head tail ih =>
    cases position with
    | zero =>
      cases isEntry
      simp [marked, Entry.mark, live]
    | succ position =>
      have counted := ih isEntry
      simp only [marked] at counted
      simp only [marked, modify_succ_cons, countP_cons, counted]
      omega

end Entry

end InlaySql.Lib
