import InlaySql.Lib.Probing

/-!
# The page cache's index

An open-addressing table from page ids to slots, probed linearly from a Fibonacci hash, deleted
from by shifting back, and kept at most half full by growing. Every probe ends, and the table
answers as a map from page ids to slots.
-/

namespace InlaySql.Btree

open List Option Function Lib

/-- A vacant bucket. -/
def EMPTY : Nat := 2 ^ 32 - 1

/-- Page id to slot index, as an open-addressing hash table. `keys` is meaningful only where
`slots` is not `EMPTY`. -/
structure SlotIndex where
  keys : List Nat
  slots : List Nat
  len : Nat
  grows : Nat
deriving DecidableEq

namespace SlotIndex

def new : SlotIndex := { keys := [], slots := [], len := 0, grows := 0 }

def clear (index : SlotIndex) : SlotIndex := { index with keys := [], slots := [], len := 0 }

/-- How many of the low bits of a 64-bit integer are zero. -/
def trailingZeros (number : Nat) : Nat := ((List.range 64).find? number.testBit).getD 64

/-- The home of a page id: its product with the golden ratio's fixed-point form, shifted down to
the table's width. -/
def bucket (index : SlotIndex) (id : Nat) : Nat :=
  (id * 0x9E3779B97F4A7C15 % 2 ^ 64) >>> (64 - trailingZeros index.keys.length)

/-- The loop `get`, `insert` and `remove` share: the first bucket from one on that is vacant or
holds the id, or nothing where the probe does not end. -/
def seek (index : SlotIndex) (id : Nat) : Nat -> Nat -> Option Nat
  | 0, _ => none
  | fuel + 1, place =>
    if index.slots[place]? = some EMPTY then some place
    else if index.keys[place]? = some id then some place
    else index.seek id fuel ((place + 1) &&& (index.keys.length - 1))

/-- The bucket a probe from an id's home ends at. -/
def probe (index : SlotIndex) (id : Nat) : Option Nat :=
  index.seek id index.keys.length (index.bucket id)

/-- The slot an id is bound to, or nothing where the probe does not end. -/
def get (index : SlotIndex) (id : Nat) : Option (Option Nat) :=
  if index.keys.isEmpty then some none
  else do
    let place <- index.probe id
    let slot <- index.slots[place]?
    some (if slot = EMPTY then none else some slot)

/-- The part of `insert` after the table has grown. -/
def put (index : SlotIndex) (id slot : Nat) : Option SlotIndex := do
  let place <- index.probe id
  let held <- index.slots[place]?
  if held = EMPTY then
    some { index with
      keys := index.keys.set place id, slots := index.slots.set place slot, len := index.len + 1 }
  else some { index with slots := index.slots.set place slot }

/-- Binds an id to a slot, growing the table first where it would be more than half full. The
slot is cut to 32 bits. -/
def insertWith (grow : SlotIndex -> Option SlotIndex) (index : SlotIndex) (id slot : Nat) :
    Option SlotIndex := do
  let slot := if slot < 2 ^ 32 then slot else EMPTY - 1
  let index <-
    if index.keys.isEmpty ∨ (index.len + 1) * 2 > index.keys.length then grow index else some index
  index.put id slot

/-- Doubles the table and inserts every binding again. -/
def growWith (insert : SlotIndex -> Nat -> Nat -> Option SlotIndex) (index : SlotIndex) :
    Option SlotIndex :=
  let capacity := max (index.keys.length * 2) 64
  let empty : SlotIndex :=
    { keys := List.replicate capacity 0, slots := List.replicate capacity EMPTY, len := 0,
      grows := index.grows + 1 }
  (index.keys.zip index.slots).foldlM
    (fun index pair => if pair.2 ≠ EMPTY then insert index pair.1 pair.2 else some index) empty

/-- `insert` and `grow` call each other; the depth bounds how often. -/
def insertAt : Nat -> SlotIndex -> Nat -> Nat -> Option SlotIndex
  | 0 => fun _ _ _ => none
  | depth + 1 => insertWith (growWith (insertAt depth))

/-- Binds an id to a slot, replacing any earlier binding. A growing insert inserts into a table
with room, so it does not go deeper. -/
def insert : SlotIndex -> Nat -> Nat -> Option SlotIndex := insertAt 2

/-- Whether a home lies behind the hole, in the cyclic interval up to the next bucket. -/
def inBetween (hole next home : Nat) : Bool :=
  if hole ≤ next then hole < home && home ≤ next else hole < home || home ≤ next

/-- Shifts the rest of a probe run back over a hole. -/
def shiftBack (index : SlotIndex) : Nat -> Nat -> Nat -> Option SlotIndex
  | 0, _, _ => none
  | fuel + 1, hole, next => do
      let slot <- index.slots[next]?
      let key <- index.keys[next]?
      if slot = EMPTY then some index
      else
        let behind := (next + 1) &&& (index.keys.length - 1)
        if inBetween hole next (index.bucket key) then index.shiftBack fuel hole behind
        else
          shiftBack { index with
            keys := index.keys.set hole key
            slots := (index.slots.set hole slot).set next EMPTY } fuel next behind

/-- Unbinds an id, shifting the rest of its probe run back. -/
def remove (index : SlotIndex) (id : Nat) : Option SlotIndex :=
  if index.keys.isEmpty then some index
  else do
    let place <- index.probe id
    let held <- index.slots[place]?
    if held = EMPTY then some index
    else
      shiftBack { index with slots := index.slots.set place EMPTY, len := index.len - 1 }
        index.keys.length place ((place + 1) &&& (index.keys.length - 1))

/-! ## Buckets -/

/-- What a bucket holds. -/
def cell (index : SlotIndex) (place : Nat) : Option (Nat × Nat) :=
  match index.keys[place]?, index.slots[place]? with
  | some key, some slot => if slot = EMPTY then none else some (key, slot)
  | _, _ => none

variable {index : SlotIndex} {place key slot id bits : Nat} {map : Nat -> Option Nat}

theorem cell_eq_some : index.cell place = some (key, slot) ↔
    index.keys[place]? = some key ∧ index.slots[place]? = some slot ∧ slot ≠ EMPTY := by
  unfold cell
  constructor
  · intro isCell
    split at isCell
    · next isKey isSlot =>
        split at isCell
        · cases isCell
        · next occupied =>
            cases isCell
            exact ⟨isKey, isSlot, occupied⟩
    · cases isCell
  · rintro ⟨isKey, isSlot, occupied⟩
    rw [isKey, isSlot]
    exact if_neg occupied

theorem cell_eq_none (lengths : index.slots.length = index.keys.length)
    (inside : place < index.keys.length) :
    index.cell place = none ↔ index.slots[place]? = some EMPTY := by
  have isKey := getElem?_eq_getElem inside
  have within : place < index.slots.length := lengths ▸ inside
  have isSlot := getElem?_eq_getElem within
  unfold cell
  rw [isKey, isSlot, some_inj]
  by_cases vacant : index.slots[place] = EMPTY
  · simp [vacant]
  · simp [vacant]

theorem cell_set (after : SlotIndex) (lengths : index.slots.length = index.keys.length)
    (inside : place < index.keys.length) (keys : after.keys = index.keys.set place key)
    (slots : after.slots = index.slots.set place slot) :
    after.cell = update index.cell place (if slot = EMPTY then none else some (key, slot)) := by
  funext other
  unfold cell
  rw [keys, slots]
  by_cases same : other = place
  · subst same
    rw [update_self, getElem?_set_self inside, getElem?_set_self (lengths ▸ inside)]
  · rw [update_of_ne same, getElem?_set_ne (Ne.symm same), getElem?_set_ne (Ne.symm same)]

theorem set_eq_self {list : List Nat} (isAt : list[place]? = some key) :
    list.set place key = list := by
  obtain ⟨inside, rfl⟩ := List.getElem?_eq_some_iff.mp isAt
  exact set_getElem_self inside

theorem trailingZeros_two_pow (bits : Nat) : trailingZeros (2 ^ bits) = min bits 64 := by
  have isTest : (2 ^ bits).testBit = fun bit => decide (bits = bit) := by
    funext bit
    exact Nat.testBit_two_pow
  unfold trailingZeros
  rw [isTest]
  by_cases inside : bits < 64
  · have found : (List.range 64).find? (fun bit => decide (bits = bit)) = some bits := by
      rw [find?_range_eq_some]
      refine ⟨by simp, by simpa using inside, fun bit below => ?_⟩
      simpa using Nat.ne_of_gt below
    rw [found, getD_some, Nat.min_eq_left (Nat.le_of_lt inside)]
  · have missed : (List.range 64).find? (fun bit => decide (bits = bit)) = none := by
      rw [find?_eq_none]
      intro bit isBit
      have below := mem_range.mp isBit
      simp only [decide_eq_true_eq]
      omega
    rw [missed, getD_none, Nat.min_eq_right (Nat.le_of_not_lt inside)]

theorem bucket_lt (width : index.keys.length = 2 ^ bits) (id : Nat) :
    index.bucket id < index.keys.length := by
  have bound := Nat.mod_lt (id * 0x9E3779B97F4A7C15) (show 0 < 2 ^ 64 by decide)
  unfold bucket
  rw [width, trailingZeros_two_pow, Nat.shiftRight_eq_div_pow]
  refine Nat.div_lt_of_lt_mul (lt_of_lt_of_le bound ?_)
  rw [<- pow_add]
  exact Nat.pow_le_pow_right (by decide) (by omega)

theorem bucket_congr {after : SlotIndex} (same : after.keys.length = index.keys.length) :
    after.bucket = index.bucket := by
  unfold bucket
  rw [same]

theorem mask_eq_behind (width : index.keys.length = 2 ^ bits) (inside : place < index.keys.length) :
    (place + 1) &&& (index.keys.length - 1) = Probing.behind index.keys.length place := by
  rw [width] at inside ⊢
  rw [Nat.and_two_pow_sub_one_eq_mod]
  rcases Probing.behind_cases (2 ^ bits) place with ⟨last, isBehind⟩ | ⟨notLast, isBehind⟩
  · rw [isBehind, last, Nat.mod_self]
  · rw [isBehind, Nat.mod_eq_of_lt (by omega)]

section

variable (lengths : index.slots.length = index.keys.length)

include lengths

theorem seek_eq (width : index.keys.length = 2 ^ bits) (id fuel : Nat)
    (inside : place < index.keys.length) :
    index.seek id fuel place = Probing.probe index.keys.length index.cell id fuel place := by
  induction fuel generalizing place with
  | zero => rfl
  | succ fuel ih =>
    unfold seek Probing.probe
    cases isCell : index.cell place with
    | none => rw [if_pos ((cell_eq_none lengths inside).mp isCell)]
    | some pair =>
      obtain ⟨isKey, isSlot, occupied⟩ := cell_eq_some.mp isCell
      rw [if_neg (by rw [isSlot]; simpa using occupied), isKey, mask_eq_behind width inside,
        ih (Probing.behind_lt inside)]
      simp only [some_inj]

theorem cell_moved {hole next : Nat} (holeInside : hole < index.keys.length)
    (nextInside : next < index.keys.length) (isKey : index.keys[next]? = some key) (slot : Nat)
    (occupied : slot ≠ EMPTY) :
    cell { index with
      keys := index.keys.set hole key
      slots := (index.slots.set hole slot).set next EMPTY } =
        update (update index.cell hole (some (key, slot))) next none := by
  have sameKey : (index.keys.set hole key)[next]? = some key := by
    rw [getElem?_set]
    split
    · rfl
    · exact isKey
  let filled : SlotIndex := { index with
    keys := index.keys.set hole key, slots := index.slots.set hole slot }
  have isFilled : filled.cell = update index.cell hole (some (key, slot)) := by
    rw [cell_set filled lengths holeInside rfl rfl, if_neg occupied]
  rw [<- isFilled]
  have lengthFilled : filled.slots.length = filled.keys.length := by
    simp only [filled, length_set, lengths]
  have insideFilled : next < filled.keys.length := by
    simpa only [filled, length_set] using nextInside
  rw [cell_set _ lengthFilled insideFilled (set_eq_self sameKey).symm rfl, if_pos rfl]

end

theorem inBetween_iff (hole next home : Nat) :
    inBetween hole next home = true ↔ Probing.Between hole next home := by
  unfold inBetween Probing.Between
  split
  · simp only [Bool.and_eq_true, decide_eq_true_eq]
    omega
  · simp only [Bool.or_eq_true, decide_eq_true_eq]
    omega

theorem shiftBack_eq (lengths : index.slots.length = index.keys.length)
    (width : index.keys.length = 2 ^ bits) {fuel hole next : Nat}
    (holeInside : hole < index.keys.length) (nextInside : next < index.keys.length)
    {after : Nat -> Option (Nat × Nat)}
    (shifted : Probing.shift index.keys.length index.bucket fuel index.cell hole next = some after) :
    ∃ done, index.shiftBack fuel hole next = some done ∧ done.cell = after ∧
      done.keys.length = index.keys.length ∧ done.slots.length = done.keys.length ∧
      done.len = index.len := by
  induction fuel generalizing index hole next with
  | zero => cases shifted
  | succ fuel ih =>
    have isKey := getElem?_eq_getElem nextInside
    unfold Probing.shift at shifted
    unfold shiftBack
    cases isCell : index.cell next with
    | none =>
      simp only [isCell, some_inj] at shifted
      simp only [(cell_eq_none lengths nextInside).mp isCell, isKey, bind_eq_bind,
        bind_some, if_true]
      exact ⟨index, rfl, shifted, rfl, lengths, rfl⟩
    | some pair =>
      obtain ⟨key, slot⟩ := pair
      obtain ⟨isKey, isSlot, occupied⟩ := cell_eq_some.mp isCell
      simp only [isCell] at shifted
      simp only [isKey, isSlot, bind_eq_bind, bind_some, if_neg occupied,
        mask_eq_behind width nextInside, inBetween_iff]
      by_cases between : Probing.Between hole next (index.bucket key)
      · rw [if_pos between] at shifted
        rw [if_pos between]
        exact ih lengths width holeInside (Probing.behind_lt nextInside) shifted
      · rw [if_neg between] at shifted
        rw [if_neg between]
        generalize isMoved : ({ index with
          keys := index.keys.set hole key
          slots := (index.slots.set hole slot).set next EMPTY } : SlotIndex) = moved
        have keysLength : moved.keys.length = index.keys.length := by
          rw [<- isMoved]
          exact length_set
        have slotsLength : moved.slots.length = moved.keys.length := by
          rw [keysLength, <- lengths, <- isMoved]
          simp only [length_set]
        have isCells := cell_moved lengths holeInside nextInside isKey slot occupied
        rw [isMoved] at isCells
        rw [<- isCells, <- bucket_congr keysLength, <- keysLength] at shifted
        rw [<- keysLength] at nextInside ⊢
        have isLen : moved.len = index.len := by rw [<- isMoved]
        rw [<- isLen]
        exact ih slotsLength (keysLength.trans width) nextInside (Probing.behind_lt nextInside)
          shifted

/-! ## A finite map -/

/-- The index answers as a map: its buckets are a table holding the map's bindings, at most half
full. -/
structure Sound (index : SlotIndex) (map : Nat -> Option Nat) : Prop where
  lengths : index.slots.length = index.keys.length
  width : index.keys = [] ∨ ∃ bits, 6 ≤ bits ∧ index.keys.length = 2 ^ bits
  table : index.keys ≠ [] -> Probing.Table index.keys.length index.bucket index.cell
  holds : Probing.Holds index.keys.length index.cell map
  count : ∃ ids : Finset Nat, (∀ id, id ∈ ids ↔ (map id).isSome) ∧ ids.card = index.len
  half : index.len * 2 ≤ index.keys.length
  small : ∀ id slot, map id = some slot -> slot < EMPTY

theorem sound_new : new.Sound (fun _ => none) where
  lengths := rfl
  width := .inl rfl
  table := fun filled => absurd rfl filled
  holds := by
    intro id slot
    refine iff_of_false (fun bound => by cases bound) ?_
    rintro ⟨place, inside, _⟩
    exact absurd inside (Nat.not_lt_zero place)
  count := ⟨∅, fun id => by simp, rfl⟩
  half := Nat.le_refl 0
  small := fun _ _ bound => by cases bound

section

variable (sound : index.Sound map)

include sound

theorem Sound.none_of_empty (isEmpty : index.keys = []) (id : Nat) : map id = none := by
  refine eq_none_iff_forall_not_mem.mpr fun slot bound => ?_
  obtain ⟨place, inside, _⟩ := (sound.holds id slot).mp bound
  rw [isEmpty] at inside
  exact absurd inside (Nat.not_lt_zero place)

theorem Sound.exists_vacant (filled : index.keys ≠ []) :
    ∃ place < index.keys.length, index.cell place = none := by
  obtain ⟨ids, isIds, card⟩ := sound.count
  have few : ids.card < index.keys.length := by
    have positive := length_pos_of_ne_nil filled
    have half := sound.half
    omega
  exact Probing.exists_vacant (sound.table filled) sound.holds (fun id => (isIds id).mpr) few

theorem Sound.probe_ends (filled : index.keys ≠ []) (id : Nat) :
    ∃ place, index.probe id = some place ∧
      Probing.Ends index.keys.length index.cell id (index.bucket id) place := by
  obtain ⟨vacant, inside, isVacant⟩ := sound.exists_vacant filled
  obtain ⟨bits, _, width⟩ := sound.width.resolve_left filled
  have homeInside := bucket_lt width id
  obtain ⟨place, found, ends⟩ := Probing.probe_ends id inside isVacant index.keys.length
    (index.bucket id) homeInside (Probing.distance_lt homeInside inside)
  refine ⟨place, ?_, ends⟩
  unfold probe
  rw [seek_eq sound.lengths width id _ homeInside, found]

theorem Sound.get_eq (id : Nat) : index.get id = some (map id) := by
  unfold get
  by_cases isEmpty : index.keys = []
  · rw [if_pos (by rw [isEmpty]; rfl), sound.none_of_empty isEmpty]
  rw [if_neg (by rw [List.isEmpty_iff]; exact isEmpty)]
  obtain ⟨place, found, ends⟩ := sound.probe_ends isEmpty id
  rw [found]
  rcases ends.stops with isVacant | ⟨slot, isCell⟩
  · rw [ends.absent (sound.table isEmpty) isVacant sound.holds]
    simp [(cell_eq_none sound.lengths ends.inside).mp isVacant]
  · obtain ⟨_, isSlot, occupied⟩ := cell_eq_some.mp isCell
    rw [ends.bound isCell sound.holds]
    simp [isSlot, occupied]

end

theorem Sound.len_le {other : SlotIndex} {more : Nat -> Option Nat} (sound : index.Sound map)
    (otherSound : other.Sound more) (fewer : ∀ id, (map id).isSome -> (more id).isSome) :
    index.len ≤ other.len := by
  obtain ⟨ids, isIds, card⟩ := sound.count
  obtain ⟨otherIds, isOtherIds, otherCard⟩ := otherSound.count
  rw [<- card, <- otherCard]
  refine Finset.card_le_card fun id isId => ?_
  exact (isOtherIds id).mpr (fewer id ((isIds id).mp isId))

theorem Sound.put (sound : index.Sound map) (room : (index.len + 1) * 2 ≤ index.keys.length)
    (id : Nat) (fits : slot < EMPTY) :
    ∃ next, index.put id slot = some next ∧ next.Sound (update map id (some slot)) ∧
      next.keys.length = index.keys.length := by
  have filled : index.keys ≠ [] := by
    intro isEmpty
    rw [isEmpty] at room
    exact absurd room (by simp)
  obtain ⟨place, found, ends⟩ := sound.probe_ends filled id
  obtain ⟨ids, isIds, card⟩ := sound.count
  have occupied : slot ≠ EMPTY := Nat.ne_of_lt fits
  have table := (sound.table filled).put ends slot
  have holds := sound.holds.put (sound.table filled) ends slot
  unfold SlotIndex.put
  rw [found]
  -- what both branches leave behind: the bucket written, and the counted ids
  have written (next : SlotIndex) (keys : next.keys = index.keys.set place id)
      (slots : next.slots = index.slots.set place slot)
      (counts : ∃ ids : Finset Nat, (∀ other, other ∈ ids ↔ (update map id (some slot) other).isSome) ∧
        ids.card = next.len) (half : next.len * 2 ≤ index.keys.length) :
      next.Sound (update map id (some slot)) ∧ next.keys.length = index.keys.length := by
    have keysLength : next.keys.length = index.keys.length := by rw [keys, length_set]
    have isCell : next.cell = update index.cell place (some (id, slot)) := by
      rw [cell_set next sound.lengths ends.inside keys slots, if_neg occupied]
    refine ⟨⟨?_, ?_, fun _ => ?_, ?_, counts, keysLength ▸ half, ?_⟩, keysLength⟩
    · rw [keysLength, slots, length_set, sound.lengths]
    · obtain ⟨bits, enough, width⟩ := sound.width.resolve_left filled
      exact .inr ⟨bits, enough, keysLength.trans width⟩
    · rw [keysLength, bucket_congr keysLength, isCell]
      exact table
    · rw [keysLength, isCell]
      exact holds
    · intro other otherSlot bound
      by_cases same : other = id
      · rw [same, update_self] at bound
        exact Option.some.inj bound ▸ fits
      · rw [update_of_ne same] at bound
        exact sound.small other otherSlot bound
  rcases ends.stops with isVacant | ⟨held, isCell⟩
  · have isSlot := (cell_eq_none sound.lengths ends.inside).mp isVacant
    have absent := ends.absent (sound.table filled) isVacant sound.holds
    have isNew : id ∉ ids := by
      rw [isIds, absent]
      simp
    simp only [bind_eq_bind, bind_some, isSlot, if_true]
    refine ⟨_, rfl, written _ rfl rfl ⟨ids.cons id isNew, fun other => ?_, ?_⟩ room⟩
    · by_cases same : other = id
      · simp [same]
      · simp [same, isIds]
    · rw [Finset.card_cons, card]
  · obtain ⟨isKey, isSlot, isHeld⟩ := cell_eq_some.mp isCell
    have bound := ends.bound isCell sound.holds
    simp only [bind_eq_bind, bind_some, isSlot, if_neg isHeld]
    refine ⟨_, rfl, written _ (set_eq_self isKey).symm rfl ⟨ids, fun other => ?_, card⟩ sound.half⟩
    by_cases same : other = id
    · simp [same, isIds, bound]
    · simp [same, isIds]

theorem insertWith_of_room (grow : SlotIndex -> Option SlotIndex)
    (room : (index.len + 1) * 2 ≤ index.keys.length) (id : Nat) (fits : slot < EMPTY) :
    insertWith grow index id slot = index.put id slot := by
  have filled : index.keys ≠ [] := by
    intro isEmpty
    rw [isEmpty] at room
    exact absurd room (by simp)
  have same : (if slot < 2 ^ 32 then slot else EMPTY - 1) = slot :=
    if_pos (lt_trans fits (by decide))
  unfold insertWith
  rw [same, if_neg]
  · rfl
  · rw [List.isEmpty_iff]
    rintro (isEmpty | full)
    · exact filled isEmpty
    · omega

theorem insertWith_of_full {grow : SlotIndex -> Option SlotIndex} {grown : SlotIndex}
    (full : ¬(index.len + 1) * 2 ≤ index.keys.length) (isGrown : grow index = some grown) (id : Nat)
    (fits : slot < EMPTY) : insertWith grow index id slot = grown.put id slot := by
  have same : (if slot < 2 ^ 32 then slot else EMPTY - 1) = slot :=
    if_pos (lt_trans fits (by decide))
  unfold insertWith
  rw [same, if_pos (.inr (by omega)), isGrown]
  rfl

/-- A map's bindings of some ids only. -/
def bindingsOf (map : Nat -> Option Nat) (done : List Nat) (id : Nat) : Option Nat :=
  if id ∈ done then map id else none

theorem bindingsOf_append (isBound : map id = some slot) (done : List Nat) :
    update (bindingsOf map done) id (some slot) = bindingsOf map (done ++ [id]) := by
  funext other
  unfold bindingsOf
  by_cases same : other = id
  · rw [same, update_self, if_pos (by simp), isBound]
  · simp [same]

theorem sound_vacant (enough : 6 ≤ bits) (grows : Nat) :
    Sound { keys := List.replicate (2 ^ bits) 0, slots := List.replicate (2 ^ bits) EMPTY, len := 0,
            grows } (fun _ => none) := by
  generalize isIndex : ({ keys := List.replicate (2 ^ bits) 0
                          slots := List.replicate (2 ^ bits) EMPTY
                          len := 0
                          grows } : SlotIndex) = index
  have width : index.keys.length = 2 ^ bits := by rw [<- isIndex, length_replicate]
  have lengths : index.slots.length = index.keys.length := by
    rw [width, <- isIndex, length_replicate]
  have vacant {place : Nat} (inside : place < index.keys.length) : index.cell place = none := by
    rw [cell_eq_none lengths inside, <- isIndex]
    rw [width] at inside
    exact getElem?_replicate_of_lt inside
  refine ⟨lengths, .inr ⟨bits, enough, width⟩, fun _ => ⟨bucket_lt width, ?_, ?_⟩, ?_, ?_, ?_, ?_⟩
  · intro one other key oneValue otherValue inside _ isOne
    rw [vacant inside] at isOne
    cases isOne
  · intro place key value inside isCell
    rw [vacant inside] at isCell
    cases isCell
  · intro id slot
    refine iff_of_false (fun bound => by cases bound) ?_
    rintro ⟨place, inside, isCell⟩
    rw [vacant inside] at isCell
    cases isCell
  · exact ⟨∅, fun id => by simp, by rw [<- isIndex]; rfl⟩
  · rw [<- isIndex]
    exact Nat.zero_le _
  · intro id slot bound
    cases bound

section

variable (sound : index.Sound map)

include sound

theorem Sound.refill (depth : Nat) (pairs : List (Nat × Nat))
    (isBound : ∀ pair ∈ pairs, pair.2 ≠ EMPTY -> map pair.1 = some pair.2) (done : List Nat)
    {table : SlotIndex} (tableSound : table.Sound (bindingsOf map done))
    (room : (index.len + 1) * 2 ≤ table.keys.length) :
    ∃ next, pairs.foldlM (fun index pair =>
        if pair.2 ≠ EMPTY then insertAt (depth + 1) index pair.1 pair.2 else some index) table =
          some next ∧
      next.Sound (bindingsOf map (done ++ (pairs.filter (·.2 ≠ EMPTY)).map Prod.fst)) ∧
      next.keys.length = table.keys.length := by
  induction pairs generalizing done table with
  | nil => exact ⟨table, rfl, by simpa using tableSound, rfl⟩
  | cons pair pairs ih =>
    have restBound := fun other isOther => isBound other (mem_cons_of_mem pair isOther)
    rw [foldlM_cons]
    by_cases occupied : pair.2 ≠ EMPTY
    · have bound := isBound pair mem_cons_self occupied
      have fewer := tableSound.len_le sound fun id isSome => by
        unfold bindingsOf at isSome
        split at isSome
        · exact isSome
        · cases isSome
      have fits := sound.small _ _ bound
      obtain ⟨next, isNext, nextSound, sameLength⟩ :=
        tableSound.put (by omega) pair.1 fits
      rw [bindingsOf_append bound] at nextSound
      obtain ⟨last, isLast, lastSound, lastLength⟩ :=
        ih restBound (done ++ [pair.1]) nextSound (by omega)
      refine ⟨last, ?_, ?_, lastLength.trans sameLength⟩
      · rw [if_pos occupied]
        show (insertWith (growWith (insertAt depth)) table pair.1 pair.2 >>= _) = _
        rw [insertWith_of_room _ (by omega) pair.1 fits, isNext]
        exact isLast
      · simpa [occupied] using lastSound
    · obtain ⟨last, isLast, lastSound, lastLength⟩ := ih restBound done tableSound room
      refine ⟨last, ?_, ?_, lastLength⟩
      · rw [if_neg occupied]
        exact isLast
      · simpa [occupied] using lastSound

theorem Sound.mem_zip (bound : map id = some slot) :
    (id, slot) ∈ index.keys.zip index.slots ∧ slot ≠ EMPTY := by
  obtain ⟨place, inside, isCell⟩ := (sound.holds id slot).mp bound
  obtain ⟨isKey, isSlot, occupied⟩ := cell_eq_some.mp isCell
  refine ⟨mem_iff_getElem?.mpr ⟨place, ?_⟩, occupied⟩
  rw [getElem?_zip_eq_some]
  exact ⟨isKey, isSlot⟩

theorem Sound.bound_of_mem {pair : Nat × Nat} (isPair : pair ∈ index.keys.zip index.slots)
    (occupied : pair.2 ≠ EMPTY) :
    map pair.1 = some pair.2 := by
  obtain ⟨place, isAt⟩ := mem_iff_getElem?.mp isPair
  obtain ⟨isKey, isSlot⟩ := getElem?_zip_eq_some.mp isAt
  obtain ⟨inside, _⟩ := List.getElem?_eq_some_iff.mp isKey
  exact (sound.holds _ _).mpr ⟨place, inside, cell_eq_some.mpr ⟨isKey, isSlot, occupied⟩⟩

theorem Sound.grow (depth : Nat) :
    ∃ next, growWith (insertAt (depth + 1)) index = some next ∧ next.Sound map ∧
      (index.len + 1) * 2 ≤ next.keys.length := by
  obtain ⟨bits, enough, isCapacity⟩ : ∃ bits, 6 ≤ bits ∧
      max (index.keys.length * 2) 64 = 2 ^ bits := by
    rcases sound.width with isEmpty | ⟨bits, enough, width⟩
    · exact ⟨6, le_refl 6, by rw [isEmpty]; rfl⟩
    · refine ⟨bits + 1, by omega, ?_⟩
      have wide : 2 ^ 6 ≤ 2 ^ bits := Nat.pow_le_pow_right (by decide) enough
      omega
  have half := sound.half
  have room : (index.len + 1) * 2 ≤ 2 ^ bits := by omega
  have start := sound_vacant enough (index.grows + 1)
  obtain ⟨next, isNext, nextSound, sameLength⟩ := sound.refill depth
    (index.keys.zip index.slots) (fun pair => sound.bound_of_mem) [] start
    (by simpa only [length_replicate] using room)
  refine ⟨next, ?_, ?_, ?_⟩
  · unfold growWith
    simp only [isCapacity]
    exact isNext
  · have all : bindingsOf map ([] ++ ((index.keys.zip index.slots).filter (·.2 ≠ EMPTY)).map
        Prod.fst) = map := by
      funext id
      unfold bindingsOf
      cases isId : map id with
      | none => exact ite_self none
      | some slot =>
        rw [if_pos]
        obtain ⟨isPair, occupied⟩ := sound.mem_zip isId
        rw [nil_append, List.mem_map]
        exact ⟨(id, slot), by simpa using ⟨isPair, occupied⟩, rfl⟩
    rwa [all] at nextSound
  · rw [sameLength, length_replicate]
    exact room

theorem Sound.insert (id : Nat) (fits : slot < EMPTY) :
    ∃ next, index.insert id slot = some next ∧ next.Sound (update map id (some slot)) := by
  have isInsert : index.insert id slot = insertWith (growWith (insertAt 1)) index id slot := rfl
  rw [isInsert]
  by_cases room : (index.len + 1) * 2 ≤ index.keys.length
  · rw [insertWith_of_room _ room id fits]
    obtain ⟨next, isNext, nextSound, _⟩ := sound.put room id fits
    exact ⟨next, isNext, nextSound⟩
  · obtain ⟨grown, isGrown, grownSound, grownRoom⟩ := sound.grow 0
    rw [insertWith_of_full room isGrown id fits]
    have same := grownSound.len_le sound fun _ isBound => isBound
    obtain ⟨next, isNext, nextSound, _⟩ := grownSound.put (by omega) id fits
    exact ⟨next, isNext, nextSound⟩

theorem Sound.count_erase (bound : map id = some slot) :
    ∃ ids : Finset Nat, (∀ other, other ∈ ids ↔ (update map id none other).isSome) ∧
      ids.card = index.len - 1 := by
  obtain ⟨ids, isIds, card⟩ := sound.count
  refine ⟨ids.erase id, fun other => ?_, ?_⟩
  · by_cases same : other = id
    · simp [same]
    · simp [same, isIds]
  · rw [Finset.card_erase_of_mem (by rw [isIds, bound]; rfl), card]

end

theorem update_absent (absent : map id = none) : update map id none = map := by
  rw [<- absent]
  exact update_eq_self id map

theorem Sound.remove (sound : index.Sound map) (id : Nat) :
    ∃ next, index.remove id = some next ∧ next.Sound (update map id none) := by
  unfold SlotIndex.remove
  by_cases isEmpty : index.keys = []
  · refine ⟨index, by rw [if_pos (by rw [isEmpty]; rfl)], ?_⟩
    rwa [update_absent (sound.none_of_empty isEmpty id)]
  rw [if_neg (by rw [List.isEmpty_iff]; exact isEmpty)]
  obtain ⟨place, found, ends⟩ := sound.probe_ends isEmpty id
  rw [found]
  rcases ends.stops with isVacant | ⟨slot, isCell⟩
  · have isSlot := (cell_eq_none sound.lengths ends.inside).mp isVacant
    refine ⟨index, by simp [isSlot], ?_⟩
    rwa [update_absent (ends.absent (sound.table isEmpty) isVacant sound.holds)]
  · obtain ⟨isKey, isSlot, occupied⟩ := cell_eq_some.mp isCell
    obtain ⟨bits, enough, width⟩ := sound.width.resolve_left isEmpty
    obtain ⟨vacant, vacantInside, isVacant⟩ := sound.exists_vacant isEmpty
    obtain ⟨ids, isIds, card⟩ := sound.count_erase (ends.bound isCell sound.holds)
    simp only [bind_eq_bind, bind_some, isSlot, if_neg occupied]
    rw [mask_eq_behind width ends.inside]
    generalize isHollow : ({ index with
      slots := index.slots.set place EMPTY, len := index.len - 1 } : SlotIndex) = hollow
    have keys : hollow.keys = index.keys := by rw [<- isHollow]
    have lengths : hollow.slots.length = hollow.keys.length := by
      rw [keys, <- isHollow, <- sound.lengths]
      exact length_set
    have isCells : hollow.cell = update index.cell place none := by
      have sameKeys : hollow.keys = index.keys.set place id := by rw [keys, set_eq_self isKey]
      have slots : hollow.slots = index.slots.set place EMPTY := by rw [<- isHollow]
      rw [cell_set hollow sound.lengths ends.inside sameKeys slots, if_pos rfl]
    have sameBucket : hollow.bucket = index.bucket := bucket_congr (by rw [keys])
    have shifting := (sound.table isEmpty).emptied ends.inside isCell vacantInside isVacant
    have holds := sound.holds.erase (sound.table isEmpty) ends.inside isCell
    obtain ⟨after, shifted, table, kept⟩ := shifting.ends index.keys.length holds
      (Probing.distance_lt shifting.nextInside vacantInside)
    rw [<- isCells, <- sameBucket, <- keys] at shifted
    rw [<- keys] at width ends ⊢
    obtain ⟨next, isNext, isAfter, sameLength, nextLengths, sameLen⟩ :=
      shiftBack_eq lengths width ends.inside (keys ▸ shifting.nextInside) shifted
    have isLen : next.len = index.len - 1 := by rw [sameLen, <- isHollow]
    have sameKeys : next.keys.length = index.keys.length := by rw [sameLength, keys]
    refine ⟨next, isNext, nextLengths, .inr ⟨bits, enough, sameLength.trans width⟩, fun _ => ?_, ?_,
      ⟨ids, isIds, card.trans isLen.symm⟩, ?_, ?_⟩
    · rw [sameKeys, bucket_congr sameKeys, isAfter]
      exact table
    · rw [sameKeys, isAfter]
      exact kept
    · have half := sound.half
      omega
    · intro other otherSlot otherBound
      by_cases same : other = id
      · rw [same, update_self] at otherBound
        cases otherBound
      · rw [update_of_ne same] at otherBound
        exact sound.small other otherSlot otherBound

theorem sound_clear (index : SlotIndex) : index.clear.Sound (fun _ => none) := by
  obtain ⟨lengths, width, table, holds, count, half, small⟩ := sound_new
  exact ⟨lengths, width, table, holds, count, half, small⟩

/-! ## Runs -/

/-- A call on the index. -/
inductive Call where
  | insert (id slot : Nat)
  | remove (id : Nat)
  | get (id : Nat)
  | clear

namespace Call

/-- What a call does to the index, and what a lookup answers; nothing where a probe does not
end. -/
def apply (index : SlotIndex) : Call -> Option (SlotIndex × Option Nat)
  | .insert id slot => (index.insert id slot).map (·, none)
  | .remove id => (index.remove id).map (·, none)
  | .get id => (index.get id).map (index, ·)
  | .clear => some (index.clear, none)

/-- What a call does to a finite map, and what a lookup answers there. -/
def onMap (map : Nat -> Option Nat) : Call -> (Nat -> Option Nat) × Option Nat
  | .insert id slot => (update map id (some slot), none)
  | .remove id => (update map id none, none)
  | .get id => (map, map id)
  | .clear => (fun _ => none, none)

/-- An inserted slot can be told from the mark of a vacant bucket. -/
def Fits : Call -> Prop
  | .insert _ slot => slot < EMPTY
  | .remove _ | .get _ | .clear => True

end Call

/-- The index after a sequence of calls, and their answers. -/
def run (index : SlotIndex) : List Call -> Option (SlotIndex × List (Option Nat))
  | [] => some (index, [])
  | call :: calls => do
      let (index, answer) <- call.apply index
      let (index, answers) <- index.run calls
      some (index, answer :: answers)

/-- The map after a sequence of calls, and their answers. -/
def runOnMap (map : Nat -> Option Nat) : List Call -> (Nat -> Option Nat) × List (Option Nat)
  | [] => (map, [])
  | call :: calls =>
    let (map, answer) := call.onMap map
    let (map, answers) := runOnMap map calls
    (map, answer :: answers)

theorem Sound.apply (sound : index.Sound map) (call : Call) (fits : call.Fits) :
    ∃ next, call.apply index = some (next, (call.onMap map).2) ∧ next.Sound (call.onMap map).1 := by
  cases call with
  | insert id slot =>
    obtain ⟨next, isNext, nextSound⟩ := sound.insert id fits
    exact ⟨next, by simp only [Call.apply, isNext]; rfl, nextSound⟩
  | remove id =>
    obtain ⟨next, isNext, nextSound⟩ := sound.remove id
    exact ⟨next, by simp only [Call.apply, isNext]; rfl, nextSound⟩
  | get id => exact ⟨index, by simp only [Call.apply, sound.get_eq]; rfl, sound⟩
  | clear => exact ⟨index.clear, rfl, sound_clear index⟩

theorem Sound.run (sound : index.Sound map) (calls : List Call) (fit : ∀ call ∈ calls, call.Fits) :
    ∃ next, index.run calls = some (next, (runOnMap map calls).2) ∧
      next.Sound (runOnMap map calls).1 := by
  induction calls generalizing index map with
  | nil => exact ⟨index, rfl, sound⟩
  | cons call calls ih =>
    obtain ⟨next, isNext, nextSound⟩ := sound.apply call (fit call mem_cons_self)
    obtain ⟨last, isLast, lastSound⟩ :=
      ih nextSound fun other isOther => fit other (mem_cons_of_mem call isOther)
    refine ⟨last, ?_, lastSound⟩
    unfold SlotIndex.run
    rw [isNext]
    simp only [bind_eq_bind, bind_some, isLast]
    rfl

end SlotIndex

end InlaySql.Btree
