import InlaySql.Btree.SlotIndex

/-!
# The page cache

Decoded pages held under a byte budget and evicted by a clock hand. The index and the slots stay
in bijection, the recorded bytes are those of the resident pages and within the budget, and the
hand always finds a victim while a page is resident.
-/

namespace InlaySql.Btree

open List Option Function Lib

/-- One resident page. -/
structure Slot (ν : Type) where
  id : Nat
  node : ν
  footprint : Nat
  referenced : Bool
deriving DecidableEq

/-- A cache of decoded pages. A vacant slot is `none`, recycled through `free`, whose head is the
slot freed last. -/
structure PageCache (ν : Type) where
  budget : Nat
  bytes : Nat
  slots : List (Option (Slot ν))
  free : List Nat
  index : SlotIndex
  hand : Nat
  evictions : Nat
  inserts : Nat

namespace PageCache

variable {ν : Type} (footprint : ν -> Nat)

def new (budget : Nat) : PageCache ν :=
  { budget, bytes := 0, slots := [], free := [], index := .new, hand := 0, evictions := 0,
    inserts := 0 }

/-- Drops every entry. -/
def clear (cache : PageCache ν) : PageCache ν :=
  { cache with slots := [], free := [], index := cache.index.clear, hand := 0, bytes := 0 }

/-- Sets the referenced bit of the page in a slot. -/
def reference (cache : PageCache ν) (place : Nat) (referenced : Bool) : PageCache ν :=
  match cache.slots[place]? with
  | some (some entry) =>
    { cache with slots := cache.slots.set place (some { entry with referenced }) }
  | _ => cache

/-- The cached node of an id, which earns its second chance; nothing where the index's probe does
not end. -/
def get (cache : PageCache ν) (id : Nat) : Option (PageCache ν × Option ν) := do
  match <- cache.index.get id with
  | none => some (cache, none)
  | some place =>
    match cache.slots[place]? with
    | some (some entry) => some (cache.reference place true, some entry.node)
    | _ => some (cache, none)

/-- Drops an id if it is resident. -/
def remove (cache : PageCache ν) (id : Nat) : Option (PageCache ν × Bool) := do
  match <- cache.index.get id with
  | none => some (cache, false)
  | some place =>
    match cache.slots[place]? with
    | some (some entry) =>
      let index <- cache.index.remove id
      some ({ cache with
        slots := cache.slots.set place none, index, bytes := cache.bytes - entry.footprint,
        free := place :: cache.free }, true)
    | _ => some (cache, false)

/-- Sweeps the hand for some turns, clearing referenced bits, up to a page whose bit is clear. -/
def sweep (cache : PageCache ν) : Nat -> Option (PageCache ν × Bool)
  | 0 => some (cache, false)
  | turns + 1 =>
    let place := cache.hand
    let moved := { cache with hand := (cache.hand + 1) % cache.slots.length }
    match cache.slots[place]? with
    | some (some entry) =>
      if entry.referenced then (moved.reference place false).sweep turns
      else do
        let index <- cache.index.remove entry.id
        some ({ moved with
          slots := cache.slots.set place none, index, bytes := cache.bytes - entry.footprint,
          free := place :: cache.free, evictions := cache.evictions + 1 }, true)
    | _ => moved.sweep turns

/-- Evicts one entry under the clock policy, in at most two full sweeps. -/
def evictOne (cache : PageCache ν) : Option (PageCache ν × Bool) :=
  if cache.slots.length = 0 ∨ cache.index.len = 0 then some (cache, false)
  else cache.sweep (2 * cache.slots.length)

/-- Evicts while more bytes are resident than a bound allows and there is a victim; nothing where
the fuel does not suffice. -/
def evictWhile (tooMuch : PageCache ν -> Bool) : Nat -> PageCache ν -> Option (PageCache ν)
  | 0, _ => none
  | fuel + 1, cache =>
    if tooMuch cache then do
      let (cache, evicted) <- cache.evictOne
      if evicted then evictWhile tooMuch fuel cache else some cache
    else some cache

/-- Changes the budget, evicting until the new one holds. -/
def setBudget (cache : PageCache ν) (budget : Nat) : Option (PageCache ν) :=
  evictWhile (fun cache => cache.budget < cache.bytes) (cache.slots.length + 1)
    { cache with budget }

/-- The sum of two sizes in 64 bits. -/
def sizeAdd (one other : Nat) : Nat := (one + other) % 2 ^ 64

/-- The part of `insert` after room has been made: a freed slot is taken, or one is added. -/
def occupy (cache : PageCache ν) (entry : Slot ν) : Option (PageCache ν) :=
  match cache.free with
  | spot :: free =>
    match cache.slots[spot]? with
    | none => some { cache with free }
    | some _ => do
        let index <- cache.index.insert entry.id spot
        some { cache with
          slots := cache.slots.set spot (some entry), free, index,
          bytes := sizeAdd cache.bytes entry.footprint, inserts := cache.inserts + 1 }
  | [] => do
      let index <- cache.index.insert entry.id cache.slots.length
      some { cache with
        slots := cache.slots ++ [some entry], index,
        bytes := sizeAdd cache.bytes entry.footprint, inserts := cache.inserts + 1 }

/-- Makes a node resident, evicting until the budget holds. -/
def insert (cache : PageCache ν) (id : Nat) (node : ν) : Option (PageCache ν) :=
  if cache.budget = 0 then some cache
  else do
    match <- cache.index.get id with
    | some place => some (cache.reference place true)
    | none =>
      let size := footprint node
      if cache.budget < size then some cache
      else do
        let cache <- evictWhile (fun cache => cache.budget < sizeAdd cache.bytes size)
          (cache.slots.length + 1) cache
        if cache.budget < sizeAdd cache.bytes size then some cache
        else cache.occupy { id, node, footprint := size, referenced := false }

/-! ## Consistency -/

/-- The bytes charged for a slot. -/
def weight (slot : Option (Slot ν)) : Nat := slot.elim 0 Slot.footprint

variable {footprint} {cache : PageCache ν} {map : Nat -> Option Nat} {place id : Nat}
  {entry : Slot ν}

/-- The four stores of the cache agree: the index binds exactly the resident pages to their slots,
the free list holds the vacant ones, and the recorded bytes are the residents'. -/
structure Consistent (footprint : ν -> Nat) (cache : PageCache ν) (map : Nat -> Option Nat) :
    Prop where
  index : cache.index.Sound map
  resident : ∀ id place, map id = some place ↔
    ∃ entry : Slot ν, cache.slots[place]? = some (some entry) ∧ entry.id = id
  freeNodup : cache.free.Nodup
  mem_free : ∀ place, place ∈ cache.free ↔ cache.slots[place]? = some none
  measured : ∀ (place : Nat) (entry : Slot ν), cache.slots[place]? = some (some entry) ->
    entry.footprint = footprint entry.node
  bytes_eq : cache.bytes = (cache.slots.map weight).sum
  hand_lt : cache.hand = 0 ∨ cache.hand < cache.slots.length
  few : cache.slots.length ≤ EMPTY

theorem consistent_new (footprint : ν -> Nat) (budget : Nat) :
    Consistent footprint (PageCache.new budget) (fun _ => none) where
  index := SlotIndex.sound_new
  resident := by
    intro id place
    refine iff_of_false (fun bound => by cases bound) ?_
    rintro ⟨entry, isEntry, _⟩
    cases isEntry
  freeNodup := nodup_nil
  mem_free := fun place => iff_of_false not_mem_nil (fun isNone => by cases isNone)
  measured := fun place entry isEntry => by cases isEntry
  bytes_eq := rfl
  hand_lt := .inl rfl
  few := Nat.zero_le _

theorem consistent_clear (footprint : ν -> Nat) (cache : PageCache ν) :
    Consistent footprint cache.clear (fun _ => none) := by
  obtain ⟨_, resident, freeNodup, mem_free, measured, bytes_eq, hand_lt, few⟩ :=
    consistent_new footprint 0
  exact ⟨SlotIndex.sound_clear cache.index, resident, freeNodup, mem_free, measured, bytes_eq,
    hand_lt, few⟩

theorem sum_set {α : Type} (size : α -> Nat) (list : List α) (place : Nat) (old fresh : α)
    (isOld : list[place]? = some old) :
    ((list.set place fresh).map size).sum + size old = (list.map size).sum + size fresh := by
  induction list generalizing place with
  | nil => cases isOld
  | cons head tail ih =>
    cases place with
    | zero =>
      cases isOld
      simp only [set_cons_zero, map_cons, sum_cons]
      omega
    | succ place =>
      have rest := ih place isOld
      simp only [set_cons_succ, map_cons, sum_cons]
      omega

theorem Consistent.bound (consistent : Consistent footprint cache map)
    (isEntry : cache.slots[place]? = some (some entry)) : map entry.id = some place :=
  (consistent.resident _ _).mpr ⟨entry, isEntry, rfl⟩

theorem getElem?_set_cases {slots : List (Option (Slot ν))} {fresh : Option (Slot ν)}
    {other : Nat} {slot : Option (Slot ν)} (inside : place < slots.length) :
    (slots.set place fresh)[other]? = some slot ↔
      (other = place ∧ fresh = slot) ∨ (other ≠ place ∧ slots[other]? = some slot) := by
  by_cases same : other = place
  · subst same
    simp [getElem?_set_self inside]
  · simp [getElem?_set_ne (Ne.symm same), same]

theorem Consistent.reference (consistent : Consistent footprint cache map) (place : Nat)
    (referenced : Bool) : Consistent footprint (cache.reference place referenced) map := by
  unfold PageCache.reference
  split
  · next entry isEntry =>
      have inside := (List.getElem?_eq_some_iff.mp isEntry).1
      obtain ⟨index, resident, freeNodup, mem_free, measured, bytes_eq, hand_lt, few⟩ := consistent
      refine ⟨index, ?_, freeNodup, ?_, ?_, ?_, ?_, ?_⟩
      · intro id other
        rw [resident]
        constructor
        · rintro ⟨held, isHeld, rfl⟩
          by_cases same : other = place
          · subst same
            rw [isEntry] at isHeld
            cases isHeld
            exact ⟨_, (getElem?_set_cases inside).mpr (.inl ⟨rfl, rfl⟩), rfl⟩
          · exact ⟨held, (getElem?_set_cases inside).mpr (.inr ⟨same, isHeld⟩), rfl⟩
        · rintro ⟨held, isHeld, rfl⟩
          rcases (getElem?_set_cases inside).mp isHeld with ⟨rfl, isFresh⟩ | ⟨_, isHeld⟩
          · cases isFresh
            exact ⟨entry, isEntry, rfl⟩
          · exact ⟨held, isHeld, rfl⟩
      · intro other
        rw [mem_free, getElem?_set_cases inside]
        constructor
        · intro isVacant
          refine .inr ⟨?_, isVacant⟩
          rintro rfl
          rw [isEntry] at isVacant
          cases isVacant
        · rintro (⟨_, isFresh⟩ | ⟨_, isVacant⟩)
          · cases isFresh
          · exact isVacant
      · intro other held isHeld
        rcases (getElem?_set_cases inside).mp isHeld with ⟨_, isFresh⟩ | ⟨_, isHeld⟩
        · cases isFresh
          exact measured place entry isEntry
        · exact measured other held isHeld
      · have sums := sum_set weight cache.slots place (some entry) (some { entry with referenced })
          isEntry
        have sameWeight : weight (some { entry with referenced }) = weight (some entry) := rfl
        rw [sameWeight] at sums
        rw [bytes_eq]
        exact (Nat.add_right_cancel sums).symm
      · simpa only [length_set] using hand_lt
      · simpa only [length_set] using few
  · exact consistent

variable (referenced : Bool) {next : PageCache ν}

section

variable (consistent : Consistent footprint cache map)

include consistent

theorem Consistent.vacate (isEntry : cache.slots[place]? = some (some entry))
    (index : next.index.Sound (update map entry.id none))
    (slots : next.slots = cache.slots.set place none)
    (bytes : next.bytes = cache.bytes - entry.footprint) (free : next.free = place :: cache.free)
    (hand : next.hand = 0 ∨ next.hand < cache.slots.length) :
    Consistent footprint next (update map entry.id none) := by
  have inside := (List.getElem?_eq_some_iff.mp isEntry).1
  have bound := consistent.bound isEntry
  refine ⟨index, ?_, ?_, ?_, ?_, ?_, ?_, ?_⟩
  · intro id other
    rw [slots]
    by_cases same : id = entry.id
    · subst same
      rw [update_self]
      refine iff_of_false (fun isNone => by cases isNone) ?_
      rintro ⟨held, isHeld, sameId⟩
      rcases (getElem?_set_cases inside).mp isHeld with ⟨_, isFresh⟩ | ⟨apart, isHeld⟩
      · cases isFresh
      · have twice := (consistent.resident entry.id other).mpr ⟨held, isHeld, sameId⟩
        rw [bound] at twice
        exact apart (Option.some.inj twice).symm
    · rw [update_of_ne same, consistent.resident]
      constructor
      · rintro ⟨held, isHeld, rfl⟩
        refine ⟨held, (getElem?_set_cases inside).mpr (.inr ⟨?_, isHeld⟩), rfl⟩
        rintro rfl
        rw [isEntry] at isHeld
        cases isHeld
        exact same rfl
      · rintro ⟨held, isHeld, rfl⟩
        rcases (getElem?_set_cases inside).mp isHeld with ⟨_, isFresh⟩ | ⟨_, isHeld⟩
        · cases isFresh
        · exact ⟨held, isHeld, rfl⟩
  · rw [free, nodup_cons, consistent.mem_free, isEntry]
    exact ⟨(fun isNone => by cases isNone), consistent.freeNodup⟩
  · intro other
    rw [free, slots, mem_cons, consistent.mem_free, getElem?_set_cases inside]
    by_cases same : other = place <;> simp [same]
  · intro other held isHeld
    rw [slots] at isHeld
    rcases (getElem?_set_cases inside).mp isHeld with ⟨_, isFresh⟩ | ⟨_, isHeld⟩
    · cases isFresh
    · exact consistent.measured other held isHeld
  · have sums := sum_set weight cache.slots place (some entry) none isEntry
    have sameWeight : weight (some entry) = entry.footprint := rfl
    have noWeight : weight (none : Option (Slot ν)) = 0 := rfl
    rw [bytes, consistent.bytes_eq, slots]
    omega
  · rw [slots, length_set]
    exact hand
  · rw [slots, length_set]
    exact consistent.few

theorem Consistent.settle (absent : map entry.id = none)
    (isMeasured : entry.footprint = footprint entry.node)
    (index : next.index.Sound (update map entry.id (some place)))
    (slots : ∀ other slot, next.slots[other]? = some slot ↔ (other = place ∧ some entry = slot) ∨
      (other ≠ place ∧ cache.slots[other]? = some slot))
    (vacant : ∀ held, cache.slots[place]? ≠ some (some held))
    (sums : (next.slots.map weight).sum = (cache.slots.map weight).sum + entry.footprint)
    (bytes : next.bytes = cache.bytes + entry.footprint) (free : next.free.Nodup)
    (mem_free : ∀ other, other ∈ next.free ↔ other ≠ place ∧ other ∈ cache.free)
    (hand : next.hand = cache.hand) (longer : cache.slots.length ≤ next.slots.length)
    (few : next.slots.length ≤ EMPTY) :
    Consistent footprint next (update map entry.id (some place)) := by
  refine ⟨index, ?_, free, ?_, ?_, ?_, ?_, few⟩
  · intro id other
    by_cases same : id = entry.id
    · subst same
      rw [update_self]
      constructor
      · intro isPlace
        cases isPlace
        exact ⟨entry, (slots _ _).mpr (.inl ⟨rfl, rfl⟩), rfl⟩
      · rintro ⟨held, isHeld, sameId⟩
        rcases (slots _ _).mp isHeld with ⟨rfl, _⟩ | ⟨_, isHeld⟩
        · rfl
        · have twice := (consistent.resident entry.id other).mpr ⟨held, isHeld, sameId⟩
          rw [absent] at twice
          cases twice
    · rw [update_of_ne same, consistent.resident]
      constructor
      · rintro ⟨held, isHeld, rfl⟩
        refine ⟨held, (slots _ _).mpr (.inr ⟨?_, isHeld⟩), rfl⟩
        rintro rfl
        exact vacant held isHeld
      · rintro ⟨held, isHeld, rfl⟩
        rcases (slots _ _).mp isHeld with ⟨_, isFresh⟩ | ⟨_, isHeld⟩
        · cases isFresh
          exact absurd rfl same
        · exact ⟨held, isHeld, rfl⟩
  · intro other
    rw [mem_free, consistent.mem_free, slots]
    simp
  · intro other held isHeld
    rcases (slots _ _).mp isHeld with ⟨_, isFresh⟩ | ⟨_, isHeld⟩
    · cases isFresh
      exact isMeasured
    · exact consistent.measured other held isHeld
  · rw [bytes, consistent.bytes_eq, sums]
  · rw [hand]
    exact consistent.hand_lt.imp_right fun inside => lt_of_lt_of_le inside longer

end

/-! ## Eviction -/

section

variable (consistent : Consistent footprint cache map)

include consistent

theorem Consistent.len_le : cache.index.len ≤ cache.slots.length := by
  obtain ⟨ids, isIds, card⟩ := consistent.index.count
  have isPlace (id : ids) : ∃ place, map id = some place ∧ place < cache.slots.length := by
    obtain ⟨place, bound⟩ := isSome_iff_exists.mp ((isIds id).mp id.2)
    obtain ⟨entry, isEntry, _⟩ := (consistent.resident _ _).mp bound
    exact ⟨place, bound, (List.getElem?_eq_some_iff.mp isEntry).1⟩
  choose placeOf bound inside using isPlace
  have apart : Function.Injective fun id => (⟨placeOf id, inside id⟩ : Fin cache.slots.length) := by
    intro one other same
    obtain ⟨oneEntry, isOne, oneId⟩ := (consistent.resident _ _).mp (bound one)
    obtain ⟨otherEntry, isOther, otherId⟩ := (consistent.resident _ _).mp (bound other)
    rw [Fin.mk.inj same, isOther] at isOne
    cases isOne
    exact Subtype.ext (oneId.symm.trans otherId)
  have few := Fintype.card_le_of_injective _ apart
  rwa [Fintype.card_coe, Fintype.card_fin, card] at few

theorem Consistent.length_le (full : cache.free = []) : cache.slots.length ≤ cache.index.len := by
  obtain ⟨ids, isIds, card⟩ := consistent.index.count
  have isEntry (place : Fin cache.slots.length) :
      ∃ entry : Slot ν, cache.slots[place.1]? = some (some entry) := by
    have isSlot := getElem?_eq_getElem place.2
    cases held : cache.slots[place.1] with
    | none =>
      have isFree := (consistent.mem_free place).mpr (by rw [isSlot, held])
      rw [full] at isFree
      cases isFree
    | some entry => exact ⟨entry, by rw [isSlot, held]⟩
  choose entryOf isEntry using isEntry
  have apart : Function.Injective fun place => (entryOf place).id := by
    intro one other same
    have oneBound := consistent.bound (isEntry one)
    have otherBound := consistent.bound (isEntry other)
    rw [show (entryOf one).id = (entryOf other).id from same, otherBound] at oneBound
    exact Fin.ext (Option.some.inj oneBound).symm
  have inside (place : Fin cache.slots.length) : (entryOf place).id ∈ ids := by
    rw [isIds, consistent.bound (isEntry place)]
    rfl
  have many : Finset.univ.card ≤ ids.card :=
    Finset.card_le_card_of_injOn _ (fun place _ => inside place) apart.injOn
  rwa [Finset.card_univ, Fintype.card_fin, card] at many

theorem Consistent.exists_entry (some_ : cache.index.len ≠ 0) :
    ∃ (place : Nat) (entry : Slot ν), cache.slots[place]? = some (some entry) := by
  obtain ⟨ids, isIds, card⟩ := consistent.index.count
  obtain ⟨id, isId⟩ := Finset.card_pos.mp (show 0 < ids.card by omega)
  obtain ⟨place, bound⟩ := isSome_iff_exists.mp ((isIds id).mp isId)
  obtain ⟨entry, isEntry, _⟩ := (consistent.resident _ _).mp bound
  exact ⟨place, entry, isEntry⟩

theorem Consistent.bytes_eq_zero (none_ : cache.index.len = 0) : cache.bytes = 0 := by
  rw [consistent.bytes_eq, sum_eq_zero]
  intro size isSize
  obtain ⟨slot, isSlot, rfl⟩ := List.mem_map.mp isSize
  cases slot with
  | none => rfl
  | some entry =>
    obtain ⟨place, isEntry⟩ := mem_iff_getElem?.mp isSlot
    obtain ⟨ids, isIds, card⟩ := consistent.index.count
    have isId : entry.id ∈ ids := by
      rw [isIds, consistent.bound isEntry]
      rfl
    rw [none_, Finset.card_eq_zero] at card
    rw [card] at isId
    cases isId

end

/-- What an eviction leaves: one page fewer, under the same budget. -/
structure Evicted (footprint : ν -> Nat) (cache next : PageCache ν) (map : Nat -> Option Nat) :
    Prop where
  consistent : ∃ id, Consistent footprint next (update map id none)
  bytes_le : next.bytes ≤ cache.bytes
  len_lt : next.index.len < cache.index.len
  budget_eq : next.budget = cache.budget
  freed : next.free ≠ []

/-- The next page the hand meets with a clear bit is within some turns. -/
def Reaches (cache : PageCache ν) (turns : Nat) : Prop :=
  ∃ (place : Nat) (entry : Slot ν), cache.slots[place]? = some (some entry) ∧
    Probing.distance cache.slots.length cache.hand place +
      (if entry.referenced then cache.slots.length else 0) < turns

theorem reference_cases (cache : PageCache ν) (place : Nat) (referenced : Bool) :
    (∃ entry, cache.slots[place]? = some (some entry) ∧ cache.reference place referenced =
        { cache with slots := cache.slots.set place (some { entry with referenced }) }) ∨
      (∀ entry, cache.slots[place]? ≠ some (some entry)) ∧
        cache.reference place referenced = cache := by
  unfold PageCache.reference
  split
  · next entry isEntry => exact .inl ⟨entry, isEntry, rfl⟩
  · next other => exact .inr ⟨fun entry isEntry => other entry isEntry, rfl⟩

@[simp] theorem reference_bytes : (cache.reference place referenced).bytes = cache.bytes := by
  unfold PageCache.reference
  split <;> rfl

@[simp] theorem reference_index : (cache.reference place referenced).index = cache.index := by
  unfold PageCache.reference
  split <;> rfl

@[simp] theorem reference_budget : (cache.reference place referenced).budget = cache.budget := by
  unfold PageCache.reference
  split <;> rfl

@[simp] theorem reference_hand : (cache.reference place referenced).hand = cache.hand := by
  unfold PageCache.reference
  split <;> rfl

@[simp] theorem reference_length :
    (cache.reference place referenced).slots.length = cache.slots.length := by
  unfold PageCache.reference
  split
  · exact length_set
  · rfl

theorem Consistent.turn (consistent : Consistent footprint cache map) {hand : Nat}
    (inside : hand < cache.slots.length) : Consistent footprint { cache with hand } map := by
  obtain ⟨index, resident, freeNodup, mem_free, measured, bytes_eq, _, few⟩ := consistent
  exact ⟨index, resident, freeNodup, mem_free, measured, bytes_eq, .inr inside, few⟩

/-- The cache after the hand has passed a slot, and taken the second chance of its page. -/
def passed (cache : PageCache ν) : PageCache ν :=
  { cache with hand := (cache.hand + 1) % cache.slots.length }.reference cache.hand false

theorem sweep_pass (turns : Nat)
    (spared : ∀ entry, cache.slots[cache.hand]? = some (some entry) -> entry.referenced = true) :
    cache.sweep (turns + 1) = cache.passed.sweep turns := by
  unfold passed
  conv => lhs; unfold PageCache.sweep
  dsimp only
  split
  · next entry isEntry => rw [if_pos (spared entry isEntry)]
  · next other =>
      rcases reference_cases { cache with hand := (cache.hand + 1) % cache.slots.length } cache.hand
        false with ⟨entry, isEntry, _⟩ | ⟨_, same⟩
      · exact absurd isEntry (other entry)
      · rw [same]

theorem Reaches.passed {turns : Nat} (reaches : cache.Reaches (turns + 1))
    (handInside : cache.hand < cache.slots.length)
    (spared : ∀ entry, cache.slots[cache.hand]? = some (some entry) -> entry.referenced = true) :
    cache.passed.Reaches turns := by
  obtain ⟨place, entry, isEntry, near⟩ := reaches
  have inside := (List.getElem?_eq_some_iff.mp isEntry).1
  have isBehind : (cache.hand + 1) % cache.slots.length =
      Probing.behind cache.slots.length cache.hand := by
    rcases Probing.behind_cases cache.slots.length cache.hand with
      ⟨last, isBehind⟩ | ⟨notLast, isBehind⟩
    · rw [isBehind, last, Nat.mod_self]
    · rw [isBehind, Nat.mod_eq_of_lt (by omega)]
  unfold PageCache.passed Reaches
  rw [reference_length, reference_hand, isBehind]
  rcases reference_cases { cache with hand := Probing.behind cache.slots.length cache.hand }
    cache.hand false with ⟨held, isHeld, isNext⟩ | ⟨nothing, isNext⟩
  · rw [isNext]
    by_cases atHand : place = cache.hand
    · -- the page the hand stood at is next met once round, with its bit clear
      subst atHand
      rw [if_pos (spared entry isEntry)] at near
      have once := Probing.distance_round handInside
      refine ⟨cache.hand, _, getElem?_set_self inside, ?_⟩
      simp only [Bool.false_eq_true, if_false]
      omega
    · have nearer := Probing.distance_behind handInside inside (Ne.symm atHand)
      refine ⟨place, entry, ?_, ?_⟩
      · rw [getElem?_set_ne (Ne.symm atHand)]
        exact isEntry
      · dsimp only
        omega
  · rw [isNext]
    have apart : cache.hand ≠ place := by
      rintro same
      rw [<- same] at isEntry
      exact nothing entry isEntry
    have nearer := Probing.distance_behind handInside inside apart
    refine ⟨place, entry, isEntry, ?_⟩
    dsimp only
    omega

theorem len_lt_of_erase {index next : SlotIndex} (sound : index.Sound map)
    (bound : map id = some place) (nextSound : next.Sound (update map id none)) :
    next.len < index.len := by
  obtain ⟨ids, isIds, card⟩ := sound.count
  obtain ⟨nextIds, isNextIds, nextCard⟩ := nextSound.count
  rw [<- card, <- nextCard]
  refine Finset.card_lt_card ⟨fun other isOther => ?_, fun all => ?_⟩
  · rw [isNextIds] at isOther
    rw [isIds]
    by_cases same : other = id
    · rw [same, update_self] at isOther
      cases isOther
    · rwa [update_of_ne same] at isOther
  · have isId := all ((isIds id).mpr (by rw [bound]; rfl))
    rw [isNextIds, update_self] at isId
    cases isId

section

variable (consistent : Consistent footprint cache map)

include consistent

theorem Consistent.sweep_evict (turns : Nat)
    (isEntry : cache.slots[cache.hand]? = some (some entry)) (clear : entry.referenced = false) :
    ∃ next, cache.sweep (turns + 1) = some (next, true) ∧ Evicted footprint cache next map := by
  have inside := (List.getElem?_eq_some_iff.mp isEntry).1
  have bound := consistent.bound isEntry
  obtain ⟨index, isIndex, indexSound⟩ := consistent.index.remove entry.id
  unfold PageCache.sweep
  dsimp only
  rw [isEntry]
  simp only [clear, Bool.false_eq_true, if_false, isIndex, bind_eq_bind, bind_some]
  refine ⟨_, rfl, ⟨entry.id, consistent.vacate isEntry indexSound rfl rfl rfl ?_⟩, Nat.sub_le _ _,
    len_lt_of_erase consistent.index bound indexSound, rfl, cons_ne_nil _ _⟩
  exact .inr (Nat.mod_lt _ (by omega))

theorem Consistent.sweep (turns : Nat) (reaches : cache.Reaches turns) :
    ∃ next, cache.sweep turns = some (next, true) ∧ Evicted footprint cache next map := by
  induction turns generalizing cache with
  | zero =>
    obtain ⟨_, _, _, near⟩ := reaches
    exact absurd near (Nat.not_lt_zero _)
  | succ turns ih =>
    have handInside : cache.hand < cache.slots.length := by
      obtain ⟨place, entry, isEntry, _⟩ := reaches
      have inside := (List.getElem?_eq_some_iff.mp isEntry).1
      exact consistent.hand_lt.elim (fun isZero => by omega) id
    by_cases spared : ∀ entry, cache.slots[cache.hand]? = some (some entry) ->
        entry.referenced = true
    · rw [sweep_pass turns spared]
      have turned := consistent.turn (Nat.mod_lt (cache.hand + 1) (by omega))
      obtain ⟨next, isNext, evicted⟩ := ih (turned.reference cache.hand false)
        (reaches.passed handInside spared)
      refine ⟨next, isNext, evicted.consistent, ?_, ?_, ?_, evicted.freed⟩
      · simpa using evicted.bytes_le
      · simpa using evicted.len_lt
      · simpa using evicted.budget_eq
    · push Not at spared
      obtain ⟨entry, isEntry, notReferenced⟩ := spared
      exact consistent.sweep_evict turns isEntry (by simpa using notReferenced)

theorem Consistent.evictOne (some_ : cache.index.len ≠ 0) :
    ∃ next, cache.evictOne = some (next, true) ∧ Evicted footprint cache next map := by
  obtain ⟨place, entry, isEntry⟩ := consistent.exists_entry some_
  have inside := (List.getElem?_eq_some_iff.mp isEntry).1
  have handInside : cache.hand < cache.slots.length :=
    consistent.hand_lt.elim (fun isZero => by omega) id
  have near := Probing.distance_lt handInside inside
  unfold PageCache.evictOne
  rw [if_neg (by omega)]
  refine consistent.sweep _ ⟨place, entry, isEntry, ?_⟩
  split <;> omega

end

/-- What making room leaves: no other page, and a freed slot if one was evicted. -/
structure Roomier (footprint : ν -> Nat) (cache next : PageCache ν) (map : Nat -> Option Nat) :
    Prop where
  consistent : ∃ left, Consistent footprint next left ∧ ∀ id, map id = none -> left id = none
  bytes_le : next.bytes ≤ cache.bytes
  budget_eq : next.budget = cache.budget
  freed : next = cache ∨ next.free ≠ []

theorem Consistent.evictWhile (consistent : Consistent footprint cache map)
    (tooMuch : PageCache ν -> Bool) (fuel : Nat) (enough : cache.index.len < fuel) :
    ∃ next, evictWhile tooMuch fuel cache = some next ∧ Roomier footprint cache next map ∧
      (tooMuch next = true -> next.bytes = 0) := by
  induction fuel generalizing cache map with
  | zero => exact absurd enough (Nat.not_lt_zero _)
  | succ fuel ih =>
    have asIs : Roomier footprint cache cache map :=
      ⟨⟨map, consistent, fun _ absent => absent⟩, le_refl _, rfl, .inl rfl⟩
    unfold PageCache.evictWhile
    by_cases isTooMuch : tooMuch cache = true
    · rw [if_pos isTooMuch]
      by_cases isEmpty : cache.index.len = 0
      · have isEvict : cache.evictOne = some (cache, false) := by
          unfold PageCache.evictOne
          rw [if_pos (.inr isEmpty)]
        rw [isEvict]
        exact ⟨cache, rfl, asIs, fun _ => consistent.bytes_eq_zero isEmpty⟩
      · obtain ⟨next, isNext, evicted⟩ := consistent.evictOne isEmpty
        obtain ⟨id, nextConsistent⟩ := evicted.consistent
        have fewer := evicted.len_lt
        obtain ⟨last, isLast, roomier, done⟩ := ih nextConsistent (by omega)
        obtain ⟨left, lastConsistent, stillAbsent⟩ := roomier.consistent
        rw [isNext]
        refine ⟨last, isLast, ⟨⟨left, lastConsistent, fun other absent => stillAbsent other ?_⟩,
          roomier.bytes_le.trans evicted.bytes_le, roomier.budget_eq.trans evicted.budget_eq,
          .inr ?_⟩, done⟩
        · by_cases same : other = id
          · rw [same, update_self]
          · rw [update_of_ne same, absent]
        · rcases roomier.freed with rfl | freed
          · exact evicted.freed
          · exact freed
    · rw [if_neg isTooMuch]
      exact ⟨cache, rfl, asIs, fun isTooMuch' => absurd isTooMuch' isTooMuch⟩

/-! ## The operations -/

/-- The invariant of a cache: its stores agree, and the budget holds. -/
def Kept (footprint : ν -> Nat) (cache : PageCache ν) : Prop :=
  (∃ map, Consistent footprint cache map) ∧ cache.bytes ≤ cache.budget

theorem kept_new (footprint : ν -> Nat) (budget : Nat) : Kept footprint (PageCache.new budget) :=
  ⟨⟨_, consistent_new footprint budget⟩, Nat.zero_le _⟩

theorem kept_clear (footprint : ν -> Nat) (cache : PageCache ν) : Kept footprint cache.clear :=
  ⟨⟨_, consistent_clear footprint cache⟩, Nat.zero_le _⟩

section

variable (kept : Kept footprint cache)

include kept

theorem Kept.get (id : Nat) :
    ∃ next answer, cache.get id = some (next, answer) ∧ Kept footprint next := by
  obtain ⟨⟨map, consistent⟩, within⟩ := kept
  unfold PageCache.get
  rw [consistent.index.get_eq]
  cases bound : map id with
  | none => exact ⟨cache, none, rfl, ⟨map, consistent⟩, within⟩
  | some place =>
    obtain ⟨entry, isEntry, _⟩ := (consistent.resident id place).mp bound
    simp only [bind_eq_bind, bind_some, isEntry]
    exact ⟨_, _, rfl, ⟨map, consistent.reference place true⟩, by simpa using within⟩

theorem Kept.remove (id : Nat) :
    ∃ next answer, cache.remove id = some (next, answer) ∧ Kept footprint next := by
  obtain ⟨⟨map, consistent⟩, within⟩ := kept
  unfold PageCache.remove
  rw [consistent.index.get_eq]
  cases bound : map id with
  | none => exact ⟨cache, false, rfl, ⟨map, consistent⟩, within⟩
  | some place =>
    obtain ⟨entry, isEntry, rfl⟩ := (consistent.resident id place).mp bound
    obtain ⟨index, isIndex, indexSound⟩ := consistent.index.remove entry.id
    simp only [bind_eq_bind, bind_some, isEntry, isIndex]
    refine ⟨_, _, rfl, ⟨_, consistent.vacate isEntry indexSound rfl rfl rfl consistent.hand_lt⟩, ?_⟩
    exact (Nat.sub_le _ _).trans within

theorem Kept.setBudget (budget : Nat) :
    ∃ next, cache.setBudget budget = some next ∧ Kept footprint next := by
  obtain ⟨⟨map, consistent⟩, _⟩ := kept
  obtain ⟨index, resident, freeNodup, mem_free, measured, bytes_eq, hand_lt, few⟩ := consistent
  have rebudgeted : Consistent footprint { cache with budget } map :=
    ⟨index, resident, freeNodup, mem_free, measured, bytes_eq, hand_lt, few⟩
  obtain ⟨next, isNext, roomier, done⟩ := rebudgeted.evictWhile
    (fun cache => cache.budget < cache.bytes) (cache.slots.length + 1)
    (Nat.lt_succ_of_le rebudgeted.len_le)
  obtain ⟨left, nextConsistent, _⟩ := roomier.consistent
  refine ⟨next, isNext, ⟨left, nextConsistent⟩, ?_⟩
  by_contra tooMuch
  have isZero := done (by simpa using tooMuch)
  omega

end

/-- The condition under which making a page resident keeps the cache: the sum of the sizes fits 64
bits and, where nothing need be evicted, the page's slot can be told from the mark of a vacant
bucket. -/
def Admits (footprint : ν -> Nat) (cache : PageCache ν) (id : Nat) (node : ν) : Prop :=
  cache.index.get id = some none -> footprint node ≤ cache.budget ->
    cache.bytes + footprint node < 2 ^ 64 ∧
      (cache.bytes + footprint node ≤ cache.budget -> cache.index.len < EMPTY)

theorem Consistent.occupy (consistent : Consistent footprint cache map) (entry : Slot ν)
    (absent : map entry.id = none)
    (isMeasured : entry.footprint = footprint entry.node)
    (fits : cache.bytes + entry.footprint < 2 ^ 64)
    (room : cache.free = [] -> cache.slots.length < EMPTY) :
    ∃ next place, cache.occupy entry = some next ∧
      Consistent footprint next (update map entry.id (some place)) ∧
      next.bytes = cache.bytes + entry.footprint ∧ next.budget = cache.budget := by
  have sizes : sizeAdd cache.bytes entry.footprint = cache.bytes + entry.footprint :=
    Nat.mod_eq_of_lt fits
  unfold PageCache.occupy
  cases isFree : cache.free with
  | nil =>
    have inside := room isFree
    obtain ⟨index, isIndex, indexSound⟩ := consistent.index.insert entry.id inside
    simp only [isIndex, bind_eq_bind, bind_some]
    refine ⟨_, cache.slots.length, rfl, ?_, sizes, rfl⟩
    refine consistent.settle absent isMeasured indexSound ?_ ?_ ?_ sizes ?_ ?_ rfl ?_ ?_
    · intro other slot
      rw [getElem?_append]
      by_cases inside : other < cache.slots.length
      · rw [if_pos inside]
        simp [Nat.ne_of_lt inside]
      · rw [if_neg inside, getElem?_eq_none (Nat.le_of_not_lt inside)]
        by_cases atEnd : other = cache.slots.length
        · simp [atEnd]
        · have beyond : other - cache.slots.length ≠ 0 := by omega
          simp [atEnd, beyond]
    · intro held isHeld
      have inside := (List.getElem?_eq_some_iff.mp isHeld).1
      omega
    · simp [weight]
    · rw [<- isFree]
      exact consistent.freeNodup
    · intro other
      simp [isFree]
    · simp
    · simp only [length_append, length_cons, length_nil]
      omega
  | cons spot free =>
    have isVacant := (consistent.mem_free spot).mp (by rw [isFree]; exact mem_cons_self)
    have inside := (List.getElem?_eq_some_iff.mp isVacant).1
    have nodup := consistent.freeNodup
    rw [isFree, nodup_cons] at nodup
    obtain ⟨index, isIndex, indexSound⟩ :=
      consistent.index.insert entry.id (lt_of_lt_of_le inside consistent.few)
    simp only [isVacant, isIndex, bind_eq_bind, bind_some]
    refine ⟨_, spot, rfl, ?_, sizes, rfl⟩
    refine consistent.settle absent isMeasured indexSound ?_ ?_ ?_ sizes nodup.2 ?_ rfl ?_ ?_
    · intro other slot
      exact getElem?_set_cases inside
    · intro held isHeld
      rw [isVacant] at isHeld
      cases isHeld
    · have sums := sum_set weight cache.slots spot none (some entry) isVacant
      exact sums
    · intro other
      rw [isFree, mem_cons]
      constructor
      · intro isOther
        refine ⟨?_, .inr isOther⟩
        rintro rfl
        exact nodup.1 isOther
      · rintro ⟨apart, atSpot | isOther⟩
        · exact absurd atSpot apart
        · exact isOther
    · simp
    · simpa only [length_set] using consistent.few

theorem Kept.insert (kept : Kept footprint cache) (id : Nat) (node : ν)
    (admits : cache.Admits footprint id node) :
    ∃ next, cache.insert footprint id node = some next ∧ Kept footprint next := by
  obtain ⟨⟨map, consistent⟩, within⟩ := kept
  unfold PageCache.insert
  by_cases disabled : cache.budget = 0
  · rw [if_pos disabled]
    exact ⟨cache, rfl, ⟨map, consistent⟩, within⟩
  rw [if_neg disabled]
  unfold Admits at admits
  rw [consistent.index.get_eq] at admits ⊢
  cases bound : map id with
  | some place =>
    exact ⟨_, rfl, ⟨map, consistent.reference place true⟩, by simpa using within⟩
  | none =>
    simp only [bind_eq_bind, bind_some]
    by_cases tooLarge : cache.budget < footprint node
    · rw [if_pos tooLarge]
      exact ⟨cache, rfl, ⟨map, consistent⟩, within⟩
    rw [if_neg tooLarge]
    obtain ⟨fits, room⟩ := admits (by rw [bound]) (Nat.le_of_not_lt tooLarge)
    obtain ⟨next, isNext, roomier, _⟩ := consistent.evictWhile
      (fun next => next.budget < sizeAdd next.bytes (footprint node)) (cache.slots.length + 1)
      (Nat.lt_succ_of_le consistent.len_le)
    obtain ⟨left, nextConsistent, stillAbsent⟩ := roomier.consistent
    have bytes_le := roomier.bytes_le
    have budget_eq := roomier.budget_eq
    have sizes : sizeAdd next.bytes (footprint node) = next.bytes + footprint node :=
      Nat.mod_eq_of_lt (by omega)
    rw [isNext]
    simp only [bind_some, sizes]
    by_cases full : next.budget < next.bytes + footprint node
    · rw [if_pos full]
      exact ⟨next, rfl, ⟨left, nextConsistent⟩, by omega⟩
    rw [if_neg full]
    have free : next.free = [] -> next.slots.length < EMPTY := by
      intro isFree
      rcases roomier.freed with rfl | freed
      · have bounded := nextConsistent.length_le isFree
        have few := room (by omega)
        omega
      · exact absurd isFree freed
    have sumFits : next.bytes + footprint node < 2 ^ 64 := by omega
    obtain ⟨last, place, isLast, lastConsistent, bytes, budget⟩ := nextConsistent.occupy
      { id, node, footprint := footprint node, referenced := false } (stillAbsent id bound) rfl
      sumFits free
    refine ⟨last, isLast, ⟨_, lastConsistent⟩, ?_⟩
    rw [bytes, budget]
    exact Nat.le_of_not_lt full

/-! ## Runs -/

/-- A call on the cache. -/
inductive Call (ν : Type) where
  | get (id : Nat)
  | remove (id : Nat)
  | insert (id : Nat) (node : ν)
  | setBudget (budget : Nat)
  | clear

namespace Call

/-- What a call leaves of the cache; nothing where a loop of it does not end. -/
def apply (footprint : ν -> Nat) (cache : PageCache ν) : Call ν -> Option (PageCache ν)
  | .get id => (cache.get id).map Prod.fst
  | .remove id => (cache.remove id).map Prod.fst
  | .insert id node => cache.insert footprint id node
  | .setBudget budget => cache.setBudget budget
  | .clear => some cache.clear

/-- The condition on a call, and on the cache before it. -/
def Fits (footprint : ν -> Nat) (cache : PageCache ν) : Call ν -> Prop
  | .insert id node => cache.Admits footprint id node
  | .get _ | .remove _ | .setBudget _ | .clear => True

end Call

/-- The cache after a sequence of calls. -/
def run (footprint : ν -> Nat) (cache : PageCache ν) (calls : List (Call ν)) :
    Option (PageCache ν) :=
  calls.foldlM (Call.apply footprint) cache

/-- Every call of a run meets the condition in the cache it is made on. -/
def Fitting (footprint : ν -> Nat) (cache : PageCache ν) : List (Call ν) -> Prop
  | [] => True
  | call :: calls => call.Fits footprint cache ∧
      ∀ next, call.apply footprint cache = some next -> next.Fitting footprint calls

theorem Kept.apply (kept : Kept footprint cache) (call : Call ν) (fits : call.Fits footprint cache) :
    ∃ next, call.apply footprint cache = some next ∧ Kept footprint next := by
  cases call with
  | get id =>
    obtain ⟨next, answer, isNext, nextKept⟩ := kept.get id
    exact ⟨next, by simp only [Call.apply, isNext]; rfl, nextKept⟩
  | remove id =>
    obtain ⟨next, answer, isNext, nextKept⟩ := kept.remove id
    exact ⟨next, by simp only [Call.apply, isNext]; rfl, nextKept⟩
  | insert id node => exact kept.insert id node fits
  | setBudget budget => exact kept.setBudget budget
  | clear => exact ⟨cache.clear, rfl, kept_clear footprint cache⟩

theorem Kept.run (kept : Kept footprint cache) (calls : List (Call ν))
    (fitting : cache.Fitting footprint calls) :
    ∃ next, cache.run footprint calls = some next ∧ Kept footprint next := by
  induction calls generalizing cache with
  | nil => exact ⟨cache, rfl, kept⟩
  | cons call calls ih =>
    obtain ⟨next, isNext, nextKept⟩ := kept.apply call fitting.1
    obtain ⟨last, isLast, lastKept⟩ := ih nextKept (fitting.2 next isNext)
    refine ⟨last, ?_, lastKept⟩
    unfold PageCache.run at isLast ⊢
    rw [foldlM_cons, isNext]
    exact isLast

/-- What a cache promises between calls. -/
structure Promises (footprint : ν -> Nat) (cache : PageCache ν) : Prop where
  /-- Every probe of the index ends. -/
  answers : ∀ id, (cache.index.get id).isSome
  /-- The index binds an id to a slot exactly when the slot holds the id's page. -/
  resident : ∀ id place, cache.index.get id = some (some place) ↔
    ∃ entry : Slot ν, cache.slots[place]? = some (some entry) ∧ entry.id = id
  /-- The free list holds every vacant slot, once. -/
  recycled : cache.free.Nodup ∧ ∀ place, place ∈ cache.free ↔ cache.slots[place]? = some none
  /-- The recorded bytes are the resident pages'. -/
  bytes_eq : cache.bytes =
    (cache.slots.map fun slot => slot.elim 0 fun entry => footprint entry.node).sum
  /-- They stay within the budget. -/
  within : cache.bytes ≤ cache.budget
  /-- The hand finds a victim while a page is resident. -/
  victim : (∃ (place : Nat) (entry : Slot ν), cache.slots[place]? = some (some entry)) ->
    ∃ next, cache.evictOne = some (next, true)

theorem Kept.promises (kept : Kept footprint cache) : Promises footprint cache := by
  obtain ⟨⟨map, consistent⟩, within⟩ := kept
  refine ⟨fun id => ?_, fun id place => ?_, ⟨consistent.freeNodup, consistent.mem_free⟩, ?_, within,
    ?_⟩
  · rw [consistent.index.get_eq]
    rfl
  · rw [consistent.index.get_eq, some_inj, consistent.resident]
  · rw [consistent.bytes_eq]
    refine congrArg List.sum (map_congr_left fun slot isSlot => ?_)
    cases slot with
    | none => rfl
    | some entry =>
      obtain ⟨place, isEntry⟩ := mem_iff_getElem?.mp isSlot
      exact consistent.measured place entry isEntry
  · rintro ⟨place, entry, isEntry⟩
    have counted : cache.index.len ≠ 0 := by
      intro isZero
      obtain ⟨ids, isIds, card⟩ := consistent.index.count
      have isId : entry.id ∈ ids := by
        rw [isIds, consistent.bound isEntry]
        rfl
      rw [isZero, Finset.card_eq_zero] at card
      rw [card] at isId
      cases isId
    obtain ⟨next, isNext, _⟩ := consistent.evictOne counted
    exact ⟨next, isNext⟩

end PageCache

/-- Every run of calls on the index whose slots fit 32 bits below the mark of a vacant bucket ends
and answers as a finite map, and every run of calls on the cache that admits its pages ends in a
cache that keeps its promises. -/
theorem index_map_and_cache_kept {ν : Type} (footprint : ν -> Nat) (budget : Nat)
    (indexCalls : List SlotIndex.Call) (indexFit : ∀ call ∈ indexCalls, call.Fits)
    (calls : List (PageCache.Call ν)) (fitting : (PageCache.new budget).Fitting footprint calls) :
    (∃ index, SlotIndex.new.run indexCalls =
        some (index, (SlotIndex.runOnMap (fun _ => none) indexCalls).2)) ∧
      ∃ cache, (PageCache.new budget).run footprint calls = some cache ∧
        cache.Promises footprint := by
  obtain ⟨index, isIndex, _⟩ := SlotIndex.sound_new.run indexCalls indexFit
  obtain ⟨cache, isCache, kept⟩ := (PageCache.kept_new footprint budget).run calls fitting
  exact ⟨⟨index, isIndex⟩, cache, isCache, kept.promises⟩

/-- A page is made resident, hit, and evicted by a smaller budget. -/
theorem index_map_and_cache_kept_shrunk :
    (∃ index, SlotIndex.new.run [.insert 1 7, .insert 2 8, .remove 1, .get 2] =
        some (index, [none, none, none, some 8])) ∧
      ∃ cache, (PageCache.new 10).run (fun node : Nat => node) [.insert 1 4, .get 1, .setBudget 3] =
        some cache ∧ cache.Promises fun node : Nat => node :=
  index_map_and_cache_kept (fun node : Nat => node) 10 [.insert 1 7, .insert 2 8, .remove 1, .get 2]
    (by
      intro call isCall
      fin_cases isCall
      · show 7 < EMPTY
        decide
      · show 8 < EMPTY
        decide
      · trivial
      · trivial)
    [.insert 1 4, .get 1, .setBudget 3]
    ⟨fun _ _ => by decide, fun _ _ => ⟨trivial, fun _ _ => ⟨trivial, fun _ _ => trivial⟩⟩⟩

/-- A slot of `2 ^ 32 - 1` is stored as the mark of a vacant bucket, so its id is not found. -/
theorem index_loses_last_slot : ¬∀ calls : List SlotIndex.Call, ∃ index, SlotIndex.new.run calls =
      some (index, (SlotIndex.runOnMap (fun _ => none) calls).2) := by
  intro claimed
  obtain ⟨index, isRun⟩ := claimed [.insert 1 4294967295, .get 1]
  have lost : (SlotIndex.new.run [.insert 1 4294967295, .get 1]).map Prod.snd =
      some [none, none] := by decide +kernel
  rw [isRun] at lost
  have same : [none, some 4294967295] = [none, none] := Option.some.inj lost
  exact absurd same (by decide)

end InlaySql.Btree
