import InlaySql.Lib.Bytes
import InlaySql.Lib.Stateful

/-!
# Reading through a cursor

A cursor walks a byte string from the front. Every read checks the bytes that remain before it
slices them; a slice outside the string would be a fault of its own, beside the errors a reader
raises. The cursor keeps every element count it has read, with the bytes that remained then:
a count sizes an allocation. Three rules follow a reader through its parts: what it reads back
from the image of a value, what a value it returns satisfies, and that it never leaves the
string.
-/

namespace InlaySql.Lib

/-- A position in a byte string, and the counts read so far. -/
structure Cursor where
  bytes : Bytes
  pos : Nat
  counts : List (Nat × Nat)

/-- How a read ends when it does not give a value. -/
inductive Fault (ε : Type) where
  | raised (error : ε)
  | outOfBounds
  deriving DecidableEq, Repr

/-- A computation that reads through a cursor. -/
abbrev Reader (ε : Type) := Stateful Cursor (Fault ε)

namespace Cursor

open Stateful

def new (bytes : Bytes) : Cursor := ⟨bytes, 0, []⟩

/-- Bytes left to read. -/
def remaining (self : Cursor) : Nat := self.bytes.length - self.pos

variable {ε : Type} (corrupt : String -> ε)

/-- `take`: the next `length` bytes. A length read from four bytes cannot overflow a
position. -/
def take (length : Nat) : Reader ε Bytes := fun self =>
  if self.bytes.length < self.pos + length then
    (.error (.raised (corrupt "unexpected end of buffer")), self)
  else
    match slice? self.bytes self.pos length with
    | some taken => (.ok taken, { self with pos := self.pos + length })
    | none => (.error .outOfBounds, self)

def u8 : Reader ε UInt8 := do
  match (<- take corrupt 1) with
  | byte :: _ => pure byte
  | [] => Stateful.fail .outOfBounds

def u32 : Reader ε Nat := do return ofLe (<- take corrupt 4)

/-- `count`: a number of elements, refused when the bytes that remain cannot hold so many. -/
def count (bytesPerItem : Nat) : Reader ε Nat := do
  let declared <- u32 corrupt
  let left <- gets remaining
  if left < declared * max bytesPerItem 1 then
    Stateful.fail (.raised (corrupt
      s!"declared {declared} item(s) but only {left} byte(s) remain"))
  else
    change fun self => { self with counts := (declared, left) :: self.counts }
    return declared

/-- `count` elements, one after the other. -/
def many {α : Type} (read : Reader ε α) : Nat -> Reader ε (List α)
  | 0 => pure []
  | count + 1 => do
      let first <- read
      let rest <- many read count
      return first :: rest

/-- `count` elements, each folded into what was read before it. -/
def fold {σ : Type} (step : σ -> Reader ε σ) : Nat -> σ -> Reader ε σ
  | 0, state => pure state
  | count + 1, state => do fold step count (<- step state)

end Cursor

namespace Reader

open Stateful Cursor

variable {ε α β σ : Type} {corrupt : String -> ε}

/-! ## Reading back -/

/-- Wherever the image stands in the bytes, the reader reads the value and stops behind it. -/
def Reads (read : Reader ε α) (image : Bytes) (value : α) : Prop :=
  ∀ (front back : Bytes) (counts : List (Nat × Nat)), ∃ later,
    read ⟨front ++ image ++ back, front.length, counts⟩ =
      (.ok value, ⟨front ++ image ++ back, front.length + image.length, later⟩)

namespace Reads

variable {read : Reader ε α} {image : Bytes} {value : α} {first : Reader ε α}

theorem cast {other : Bytes} (reads : Reads read image value) (same : image = other) :
    Reads read other value :=
  same ▸ reads

theorem pure (value : α) : Reads (Pure.pure value : Reader ε α) [] value :=
  fun _ _ counts => ⟨counts, by simp⟩

theorem bind {rest : α -> Reader ε β} {later : Bytes} {result : β} (one : Reads first image value)
    (other : Reads (rest value) later result) : Reads (first >>= rest) (image ++ later) result := by
  intro front back counts
  obtain ⟨between, ran⟩ := one front (later ++ back) counts
  obtain ⟨after, finished⟩ := other (front ++ image) back between
  refine ⟨after, ?_⟩
  have spelled : front ++ (image ++ later) ++ back = front ++ image ++ (later ++ back) := by simp
  rw [spelled, bind_of_ok ran]
  simpa [Nat.add_assoc] using finished

theorem map {f : α -> β} (one : Reads first image value) :
    Reads (do let result <- first; return f result) image (f value) := by
  have both : Reads (first >>= fun result => Pure.pure (f result)) (image ++ []) (f value) :=
    one.bind (Reads.pure (f value))
  rwa [List.append_nil] at both

theorem take (corrupt : String -> ε) (image : Bytes) :
    Reads (Cursor.take corrupt image.length) image image := by
  intro front back counts
  refine ⟨counts, ?_⟩
  have inside : ¬(front ++ image ++ back).length < front.length + image.length := by simp
  simp only [Cursor.take]
  rw [if_neg inside, slice?_eq_some (by simp), slice_middle]

theorem u8 (corrupt : String -> ε) (byte : UInt8) : Reads (Cursor.u8 corrupt) [byte] byte := by
  have read : Reads (Cursor.u8 corrupt) ([byte] ++ []) byte :=
    (take corrupt [byte]).bind (Reads.pure byte)
  rwa [List.append_nil] at read

theorem u32 (corrupt : String -> ε) {number : Nat} (fits : number < 2 ^ 32) :
    Reads (Cursor.u32 corrupt) (leBytes 4 number) number := by
  have four : (leBytes 4 number).length = 4 := length_leBytes 4 number
  have read := (take corrupt (leBytes 4 number)).map (f := ofLe)
  rwa [four, ofLe_leBytes (by simpa using fits)] at read

theorem gated {absent : α} {present : Prop} [Decidable present]
    (reads : present -> Reads read image value) (same : ¬present -> absent = value) :
    Reads (if present then read else Pure.pure absent) (if present then image else []) value := by
  by_cases here : present
  · rw [if_pos here, if_pos here]
    exact reads here
  · rw [if_neg here, if_neg here, same here]
    exact .pure value

theorem passes {stop : Prop} [Decidable stop] {refusal : Reader ε α} (goes : ¬stop)
    (reads : Reads read image value) : Reads (if stop then refusal else read) image value := by
  rwa [if_neg goes]

theorem count {bytesPerItem number : Nat} {rest : Nat -> Reader ε β} {later : Bytes} {result : β}
    (fits : number < 2 ^ 32) (holds : number * max bytesPerItem 1 ≤ later.length)
    (other : Reads (rest number) later result) :
    Reads (Cursor.count corrupt bytesPerItem >>= rest) (leBytes 4 number ++ later) result := by
  intro front back counts
  obtain ⟨between, ran⟩ := u32 corrupt fits front (later ++ back) counts
  obtain ⟨after, finished⟩ := other (front ++ leBytes 4 number) back
    ((number, (later ++ back).length) :: between)
  refine ⟨after, ?_⟩
  have spelled : front ++ (leBytes 4 number ++ later) ++ back =
      front ++ leBytes 4 number ++ (later ++ back) := by simp
  have left : (⟨front ++ leBytes 4 number ++ (later ++ back),
      front.length + (leBytes 4 number).length, between⟩ : Cursor).remaining =
        (later ++ back).length := by
    simp [remaining]
    omega
  have enough : ¬(later ++ back).length < number * max bytesPerItem 1 := by
    simp only [List.length_append]
    omega
  have counted : Cursor.count corrupt bytesPerItem
      ⟨front ++ leBytes 4 number ++ (later ++ back), front.length, counts⟩ =
      (.ok number, ⟨front ++ leBytes 4 number ++ (later ++ back),
        front.length + (leBytes 4 number).length,
        (number, (later ++ back).length) :: between⟩) := by
    rw [Cursor.count, bind_of_ok ran, bind_apply]
    simp only [gets_apply, left]
    rw [if_neg enough]
    rfl
  rw [spelled, bind_of_ok counted]
  simpa [Nat.add_assoc] using finished

theorem many {image : α -> Bytes} {values : List α}
    (each : ∀ value ∈ values, Reads read (image value) value) :
    Reads (Cursor.many read values.length) (values.flatMap image) values := by
  induction values with
  | nil => exact .pure []
  | cons first values ih =>
    have rest := ih fun value member => each value (List.mem_cons_of_mem _ member)
    rw [List.flatMap_cons]
    exact (each first List.mem_cons_self).bind (rest.map (f := (first :: ·)))

theorem length_flatMap (values : List α) (image : α -> Bytes) {least : Nat}
    (each : ∀ value ∈ values, least ≤ (image value).length) :
    values.length * least ≤ (values.flatMap image).length := by
  induction values with
  | nil => simp
  | cons value values ih =>
    have one := each value List.mem_cons_self
    have rest := ih fun other member => each other (List.mem_cons_of_mem _ member)
    simp only [List.length_cons, List.flatMap_cons, List.length_append, Nat.succ_mul]
    omega

theorem counted {image : α -> Bytes} {values : List α} {least : Nat} (some : 1 ≤ least)
    (fits : values.length < 2 ^ 32) (wide : ∀ value ∈ values, least ≤ (image value).length)
    (each : ∀ value ∈ values, Reads read (image value) value) :
    Reads (Cursor.count corrupt least >>= Cursor.many read)
      (leBytes 4 values.length ++ values.flatMap image) values := by
  refine .count fits ?_ (.many each)
  rw [Nat.max_eq_left some]
  exact length_flatMap values image wide

theorem fold (step : σ -> Reader ε σ) (image : α -> Bytes) (values : List α) (state : List α -> σ)
    (each : ∀ before value after, values = before ++ value :: after ->
      Reads (step (state before)) (image value) (state (before ++ [value]))) :
    Reads (Cursor.fold step values.length (state [])) (values.flatMap image) (state values) := by
  have general : ∀ before after, values = before ++ after ->
      Reads (Cursor.fold step after.length (state before)) (after.flatMap image) (state values) := by
    intro before after
    induction after generalizing before with
    | nil =>
      intro same
      rw [same, List.append_nil]
      exact .pure _
    | cons value after ih =>
      intro same
      rw [List.flatMap_cons]
      exact (each before value after same).bind (ih (before ++ [value]) (by simp [same]))
  exact general [] values rfl

end Reads

/-! ## What a value read satisfies -/

/-- Every value the reader returns has the property. -/
def Yields (read : Reader ε α) (property : α -> Prop) : Prop :=
  ∀ cursor value next, read cursor = (.ok value, next) -> property value

namespace Yields

variable {property : α -> Prop} {later : β -> Prop}

theorem pure {value : α} (holds : property value) :
    Yields (Pure.pure value : Reader ε α) property := by
  rintro cursor _ next ⟨⟩
  exact holds

theorem fail (fault : Fault ε) : Yields (Stateful.fail fault : Reader ε α) property := by
  rintro cursor _ next ⟨⟩

theorem trivial (read : Reader ε α) : Yields read fun _ => True := fun _ _ _ _ => True.intro

variable {first : Reader ε α} {rest : α -> Reader ε β} {read : Reader ε α}

theorem bind (one : Yields first property)
    (other : ∀ value, property value -> Yields (rest value) later) :
    Yields (first >>= rest) later := by
  intro cursor value next ran
  obtain ⟨middle, between, before, after⟩ := Stateful.bind_eq_ok ran
  exact other middle (one _ _ _ before) _ _ _ after

theorem mono {weaker : α -> Prop} (yields : Yields read property)
    (implies : ∀ value, property value -> weaker value) : Yields read weaker :=
  fun cursor value next ran => implies value (yields cursor value next ran)

theorem after (other : ∀ value, Yields (rest value) later) : Yields (first >>= rest) later :=
  (trivial first).bind fun value _ => other value

theorem ofExcept {result : Except (Fault ε) α} (holds : ∀ value, result = .ok value → property value) :
    Yields (Stateful.ofExcept result : Reader ε α) property := by
  intro cursor value next ran
  rw [ofExcept_apply] at ran
  cases ran
  exact holds value rfl

theorem take (corrupt : String -> ε) (length : Nat) :
    Yields (Cursor.take corrupt length) fun taken =>
    taken.length = length := by
  intro cursor taken next ran
  unfold Cursor.take at ran
  split at ran
  · cases ran
  · rename_i inside
    rw [slice?_eq_some (by omega)] at ran
    cases ran
    exact length_slice (by omega)

theorem u32 : Yields (Cursor.u32 corrupt) fun number => number < 2 ^ 32 :=
  (take corrupt 4).bind fun taken four => .pure (by simpa [four] using ofLe_lt taken)

theorem count (bytesPerItem : Nat) :
    Yields (Cursor.count corrupt bytesPerItem) fun number => number < 2 ^ 32 := by
  refine u32.bind fun declared small => .after fun left => ?_
  split
  · exact .fail _
  · exact .after fun _ => .pure small

theorem many (each : Yields read property) (count : Nat) :
    Yields (Cursor.many read count) fun values =>
      values.length = count ∧ ∀ value ∈ values, property value := by
  induction count with
  | zero => exact .pure ⟨rfl, nofun⟩
  | succ count ih =>
    refine each.bind fun first holds => ih.bind fun rest ⟨length, all⟩ => .pure ⟨by simp [length], ?_⟩
    intro value member
    rcases List.mem_cons.mp member with rfl | member
    · exact holds
    · exact all value member

theorem counted {least : Nat} (each : Yields read property) :
    Yields (Cursor.count corrupt least >>= Cursor.many read) fun values =>
      values.length < 2 ^ 32 ∧ ∀ value ∈ values, property value :=
  (count least).bind fun _ small => (many each _).mono fun _ ⟨length, all⟩ => ⟨length ▸ small, all⟩

theorem fold {step : σ -> Reader ε σ} (kept : Nat -> σ -> Prop)
    (each : ∀ taken state, kept taken state -> Yields (step state) (kept (taken + 1)))
    (count : Nat) {taken : Nat} {state : σ} (holds : kept taken state) :
    Yields (Cursor.fold step count state) (kept (taken + count)) := by
  induction count generalizing taken state with
  | zero => exact .pure holds
  | succ count ih =>
    refine (each taken state holds).bind fun next stepped => ?_
    rw [show taken + (count + 1) = taken + 1 + count by omega]
    exact ih stepped

end Yields

/-! ## Staying inside -/

/-- The cursor is in its string, and what it has counted fitted what was left. -/
structure Inside (cursor : Cursor) : Prop where
  pos : cursor.pos ≤ cursor.bytes.length
  counts : ∀ counted ∈ cursor.counts, counted.1 ≤ counted.2 ∧ counted.2 ≤ cursor.bytes.length

/-- From inside its string the reader never reaches outside, and stays inside. -/
def Confined (read : Reader ε α) : Prop :=
  ∀ cursor, Inside cursor -> (read cursor).1 ≠ .error .outOfBounds ∧ Inside (read cursor).2 ∧
    (read cursor).2.bytes = cursor.bytes

namespace Confined

theorem pure (value : α) : Confined (Pure.pure value : Reader ε α) :=
  fun _ inside => ⟨nofun, inside, rfl⟩

theorem raise (error : ε) : Confined (Stateful.fail (.raised error) : Reader ε α) :=
  fun _ inside => ⟨nofun, inside, rfl⟩

theorem bind {first : Reader ε α} {rest : α -> Reader ε β} (one : Confined first)
    (other : ∀ value, Confined (rest value)) : Confined (first >>= rest) := by
  intro cursor inside
  obtain ⟨safe, still, same⟩ := one cursor inside
  rw [bind_apply]
  cases ran : first cursor with
  | mk answer next =>
    rw [ran] at safe still same
    cases answer with
    | error fault =>
      refine ⟨?_, still, same⟩
      rintro ⟨⟩
      exact safe rfl
    | ok value =>
      obtain ⟨safe, still, later⟩ := other value next still
      exact ⟨safe, still, later.trans same⟩

theorem take (corrupt : String -> ε) (length : Nat) : Confined (Cursor.take corrupt length) := by
  intro cursor inside
  unfold Cursor.take
  split
  · exact ⟨nofun, inside, rfl⟩
  · rename_i enough
    rw [slice?_eq_some (by omega)]
    exact ⟨nofun, ⟨by simp only; omega, inside.counts⟩, rfl⟩

theorem u8 : Confined (Cursor.u8 corrupt) := by
  intro cursor inside
  obtain ⟨safe, still, same⟩ := take corrupt 1 cursor inside
  rw [Cursor.u8, bind_apply]
  cases ran : Cursor.take corrupt 1 cursor with
  | mk answer next =>
    rw [ran] at safe still same
    cases answer with
    | error fault =>
      refine ⟨?_, still, same⟩
      rintro ⟨⟩
      exact safe rfl
    | ok taken =>
      have one := Yields.take corrupt 1 cursor taken next ran
      cases taken with
      | nil => cases one
      | cons byte rest => exact ⟨nofun, still, same⟩

theorem u32 : Confined (Cursor.u32 corrupt) := (take corrupt 4).bind fun _ => .pure _

theorem count (bytesPerItem : Nat) : Confined (Cursor.count corrupt bytesPerItem) := by
  refine u32.bind fun declared => ?_
  intro cursor inside
  rw [bind_apply]
  simp only [gets_apply]
  split
  · exact ⟨nofun, inside, rfl⟩
  · rename_i enough
    refine ⟨nofun, ⟨inside.pos, ?_⟩, rfl⟩
    intro counted member
    rcases List.mem_cons.mp member with rfl | member
    · have more : declared ≤ declared * max bytesPerItem 1 := Nat.le_mul_of_pos_right _ (by omega)
      exact ⟨by simp only; omega, Nat.sub_le _ _⟩
    · exact inside.counts counted member

theorem many {read : Reader ε α} (each : Confined read) (count : Nat) :
    Confined (Cursor.many read count) := by
  induction count with
  | zero => exact .pure []
  | succ count ih => exact each.bind fun _ => ih.bind fun _ => .pure _

theorem fold {step : σ -> Reader ε σ} (each : ∀ state, Confined (step state)) (count : Nat)
    (state : σ) : Confined (Cursor.fold step count state) := by
  induction count generalizing state with
  | zero => exact .pure state
  | succ count ih => exact (each state).bind ih

end Confined

end Reader

end InlaySql.Lib
