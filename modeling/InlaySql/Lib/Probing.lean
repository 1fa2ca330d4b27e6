import Mathlib

/-!
# Open addressing with linear probing

A key stands at its home or, going round the table, behind a run of occupied places from there.
So a probe from a key's home finds it before it meets a vacant place. A key is taken out by
moving back those behind it whose run the hole would break, until a vacant place ends the run.
-/

namespace InlaySql.Lib.Probing

open Function

/-! ## Going round -/

/-- The place behind one, in a table of some size. -/
def behind (size place : Nat) : Nat := if place + 1 = size then 0 else place + 1

/-- A place is on the way round from a start, up to but not including a stop. -/
def OnWay (start stop place : Nat) : Prop :=
  (start ≤ place ∧ place < stop) ∨ (stop < start ∧ (start ≤ place ∨ place < stop))

/-- A place is on the way from behind a hole up to and including another. -/
def Between (hole next place : Nat) : Prop :=
  (hole < place ∧ place ≤ next) ∨ (next < hole ∧ (hole < place ∨ place ≤ next))

instance (hole next place : Nat) : Decidable (Between hole next place) := by
  unfold Between
  infer_instance

/-- How far it is to a place. -/
def distance (size start stop : Nat) : Nat :=
  if start ≤ stop then stop - start else stop + size - start

theorem behind_cases (size place : Nat) : (place + 1 = size ∧ behind size place = 0) ∨
      (place + 1 ≠ size ∧ behind size place = place + 1) := by
  by_cases last : place + 1 = size
  · exact .inl ⟨last, if_pos last⟩
  · exact .inr ⟨last, if_neg last⟩

theorem distance_cases (size start stop : Nat) :
    (start ≤ stop ∧ distance size start stop = stop - start) ∨
      (stop < start ∧ distance size start stop = stop + size - start) := by
  by_cases ahead : start ≤ stop
  · exact .inl ⟨ahead, if_pos ahead⟩
  · exact .inr ⟨by omega, if_neg ahead⟩

variable {κ ν : Type} {size : Nat} {home : κ -> Nat} {cell : Nat -> Option (κ × ν)} {key : κ}
  {value : ν} {start stop place : Nat} {map : κ -> Option ν}

theorem behind_lt (inside : place < size) : behind size place < size := by
  rcases behind_cases size place with ⟨last, isBehind⟩ | ⟨notLast, isBehind⟩ <;> omega

section

variable (startInside : start < size) (stopInside : stop < size)

include startInside stopInside

theorem distance_lt : distance size start stop < size := by
  rcases distance_cases size start stop with ⟨ahead, isDistance⟩ | ⟨back, isDistance⟩ <;> omega

theorem distance_behind (apart : start ≠ stop) :
    distance size (behind size start) stop + 1 = distance size start stop := by
  have one := behind_cases size start
  have whole := distance_cases size start stop
  have rest := distance_cases size (behind size start) stop
  omega

end

theorem distance_round (inside : place < size) :
    distance size (behind size place) place + 1 = size := by
  have one := behind_cases size place
  have rest := distance_cases size (behind size place) place
  omega

theorem not_onWay_self (start place : Nat) : ¬OnWay start start place := by
  unfold OnWay
  omega

/-! ## Tables -/

/-- A table in which every key is found: each stands once, and no place is vacant on the way
from its home. -/
structure Table (size : Nat) (home : κ -> Nat) (cell : Nat -> Option (κ × ν)) : Prop where
  home_lt : ∀ key, home key < size
  unique : ∀ one other key oneValue otherValue, one < size -> other < size ->
    cell one = some (key, oneValue) -> cell other = some (key, otherValue) -> one = other
  noGap : ∀ place key value, place < size -> cell place = some (key, value) ->
    ∀ other < size, OnWay (home key) place other -> (cell other).isSome

/-- The table holds the bindings of a map. -/
def Holds (size : Nat) (cell : Nat -> Option (κ × ν)) (map : κ -> Option ν) : Prop :=
  ∀ key value, map key = some value ↔ ∃ place < size, cell place = some (key, value)

theorem exists_vacant (table : Table size home cell) (holds : Holds size cell map)
    {keys : Finset κ} (all : ∀ key, (map key).isSome -> key ∈ keys) (few : keys.card < size) :
    ∃ place < size, cell place = none := by
  by_contra full
  push Not at full
  have occupied (place : Fin size) : ∃ key value, cell place = some (key, value) := by
    obtain ⟨⟨key, value⟩, isCell⟩ := Option.ne_none_iff_exists'.mp (full place place.2)
    exact ⟨key, value, isCell⟩
  choose keyOf valueOf isCell using occupied
  have apart : Function.Injective keyOf := by
    intro one other same
    refine Fin.ext (table.unique one other (keyOf one) (valueOf one) (valueOf other) one.2 other.2
      (isCell one) ?_)
    rw [same]
    exact isCell other
  have inside (place : Fin size) : keyOf place ∈ keys := by
    refine all _ (Option.isSome_iff_exists.mpr ⟨valueOf place, ?_⟩)
    exact (holds _ _).mpr ⟨place, place.2, isCell place⟩
  have many : Finset.univ.card ≤ keys.card :=
    Finset.card_le_card_of_injOn keyOf (fun place _ => inside place) apart.injOn
  rw [Finset.card_univ, Fintype.card_fin] at many
  omega

/-! ## Probing -/

/-- The first place from one on that is vacant or holds the key. -/
def probe [DecidableEq κ] (size : Nat) (cell : Nat -> Option (κ × ν)) (key : κ) :
    Nat -> Nat -> Option Nat
  | 0, _ => none
  | fuel + 1, place =>
    match cell place with
    | none => some place
    | some (other, _) =>
      if other = key then some place else probe size cell key fuel (behind size place)

/-- Where a probe for a key ends: everything on the way holds another key. -/
structure Ends (size : Nat) (cell : Nat -> Option (κ × ν)) (key : κ) (start place : Nat) :
    Prop where
  inside : place < size
  stops : cell place = none ∨ ∃ value, cell place = some (key, value)
  passed : ∀ other < size, OnWay start place other ->
    ∃ otherKey value, cell other = some (otherKey, value) ∧ otherKey ≠ key

theorem Ends.at_once (inside : start < size)
    (stops : cell start = none ∨ ∃ value, cell start = some (key, value)) :
    Ends size cell key start start :=
  ⟨inside, stops, fun other _ onWay => absurd onWay (not_onWay_self start other)⟩

theorem Ends.further {otherKey : κ} (startInside : start < size) 
    (isCell : cell start = some (otherKey, value)) (apart : otherKey ≠ key)
    (ends : Ends size cell key (behind size start) place) :
    Ends size cell key start place := by
  refine ⟨ends.inside, ends.stops, fun other otherInside onWay => ?_⟩
  by_cases isStart : other = start
  · exact ⟨otherKey, value, isStart ▸ isCell, apart⟩
  · refine ends.passed other otherInside ?_
    have one := behind_cases size start
    unfold OnWay at *
    omega

theorem probe_ends [DecidableEq κ] (key : κ) {vacant : Nat} (inside : vacant < size)
    (isVacant : cell vacant = none) (fuel start : Nat) (startInside : start < size)
    (enough : distance size start vacant < fuel) :
    ∃ place, probe size cell key fuel start = some place ∧ Ends size cell key start place := by
  induction fuel generalizing start with
  | zero => omega
  | succ fuel ih =>
    unfold probe
    cases isCell : cell start with
    | none => exact ⟨start, rfl, .at_once startInside (.inl isCell)⟩
    | some pair =>
      obtain ⟨otherKey, value⟩ := pair
      by_cases same : otherKey = key
      · simp only [if_pos same]
        exact ⟨start, rfl, .at_once startInside (.inr ⟨value, same ▸ isCell⟩)⟩
      · simp only [if_neg same]
        have apart : start ≠ vacant := by
          rintro rfl
          rw [isVacant] at isCell
          cases isCell
        have nearer := distance_behind startInside inside apart
        obtain ⟨place, found, ends⟩ :=
          ih (behind size start) (behind_lt startInside) (by omega)
        exact ⟨place, found, ends.further startInside isCell same⟩

section

variable (table : Table size home cell) (ends : Ends size cell key (home key) place)

include table ends

theorem Ends.only {other : Nat} (otherInside : other < size)
    (isCell : cell other = some (key, value)) :
    other = place := by
  rcases ends.stops with isVacant | ⟨held, isHeld⟩
  · have placeInside := ends.inside
    by_contra apart
    by_cases before : OnWay (home key) place other
    · obtain ⟨otherKey, _, isOther, differs⟩ := ends.passed other otherInside before
      rw [isCell] at isOther
      exact differs (congrArg Prod.fst (Option.some.inj isOther)).symm
    · -- the key stands beyond the vacant place, which is then a gap on its way
      have gap := table.noGap other key value otherInside isCell place placeInside
        (by unfold OnWay at *; omega)
      rw [isVacant] at gap
      cases gap
  · exact table.unique other place key value held otherInside ends.inside isCell isHeld

theorem Ends.absent (isVacant : cell place = none) (holds : Holds size cell map) :
    map key = none := by
  refine Option.eq_none_iff_forall_not_mem.mpr fun value isBound => ?_
  obtain ⟨other, otherInside, isCell⟩ := (holds key value).mp isBound
  rw [ends.only table otherInside isCell, isVacant] at isCell
  cases isCell

end

theorem Ends.bound (ends : Ends size cell key start place) (isCell : cell place = some (key, value))
    (holds : Holds size cell map) : map key = some value :=
  (holds key value).mpr ⟨place, ends.inside, isCell⟩

theorem Table.put (table : Table size home cell) (ends : Ends size cell key (home key) place)
    (value : ν) : Table size home (update cell place (some (key, value))) where
  home_lt := table.home_lt
  unique := by
    intro one other found oneValue otherValue oneInside otherInside isOne isOther
    by_cases atOne : one = place <;> by_cases atOther : other = place
    · rw [atOne, atOther]
    · subst atOne
      rw [update_self] at isOne
      rw [update_of_ne atOther] at isOther
      cases isOne
      exact (ends.only table otherInside isOther).symm
    · subst atOther
      rw [update_self] at isOther
      rw [update_of_ne atOne] at isOne
      cases isOther
      exact ends.only table oneInside isOne
    · rw [update_of_ne atOne] at isOne
      rw [update_of_ne atOther] at isOther
      exact table.unique one other found oneValue otherValue oneInside otherInside isOne isOther
  noGap := by
    intro found foundKey foundValue foundInside isFound other otherInside onWay
    by_cases atOther : other = place
    · rw [atOther, update_self]
      rfl
    rw [update_of_ne atOther]
    by_cases atFound : found = place
    · subst atFound
      rw [update_self] at isFound
      cases isFound
      obtain ⟨otherKey, otherValue, isOther, _⟩ := ends.passed other otherInside onWay
      rw [isOther]
      rfl
    · rw [update_of_ne atFound] at isFound
      exact table.noGap found foundKey foundValue foundInside isFound other otherInside onWay

theorem Holds.put [DecidableEq κ] (table : Table size home cell)
    (ends : Ends size cell key (home key) place) (holds : Holds size cell map) (value : ν) :
    Holds size (update cell place (some (key, value))) (update map key (some value)) := by
  intro found foundValue
  by_cases same : found = key
  · subst same
    rw [update_self]
    constructor
    · intro isBound
      exact ⟨place, ends.inside, by rw [update_self, Option.some.inj isBound]⟩
    · rintro ⟨other, otherInside, isOther⟩
      by_cases atOther : other = place
      · rw [atOther, update_self] at isOther
        cases isOther
        rfl
      · rw [update_of_ne atOther] at isOther
        exact absurd (ends.only table otherInside isOther) atOther
  · rw [update_of_ne same, holds found foundValue]
    constructor
    · rintro ⟨other, otherInside, isOther⟩
      refine ⟨other, otherInside, ?_⟩
      rw [update_of_ne ?_, isOther]
      rintro rfl
      rcases ends.stops with isVacant | ⟨held, isHeld⟩
      · rw [isVacant] at isOther
        cases isOther
      · rw [isHeld] at isOther
        exact same (congrArg Prod.fst (Option.some.inj isOther)).symm
    · rintro ⟨other, otherInside, isOther⟩
      refine ⟨other, otherInside, ?_⟩
      by_cases atOther : other = place
      · rw [atOther, update_self] at isOther
        exact absurd (congrArg Prod.fst (Option.some.inj isOther)).symm same
      · rwa [update_of_ne atOther] at isOther

/-! ## Taking a key out -/

/-- Goes on from a hole moving back every key whose way leads through it, until a place is
vacant. -/
def shift (size : Nat) (home : κ -> Nat) :
    Nat -> (Nat -> Option (κ × ν)) -> Nat -> Nat -> Option (Nat -> Option (κ × ν))
  | 0, _, _, _ => none
  | fuel + 1, cell, hole, next =>
    match cell next with
    | none => some cell
    | some (key, value) =>
      if Between hole next (home key) then shift size home fuel cell hole (behind size next)
      else shift size home fuel (update (update cell hole (some (key, value))) next none) next
        (behind size next)

/-- A table with one hole, whose keys up to some place do not have the hole on their way. -/
structure Shifting (size : Nat) (home : κ -> Nat) (cell : Nat -> Option (κ × ν))
    (hole next vacant : Nat) : Prop where
  home_lt : ∀ key, home key < size
  holeInside : hole < size
  nextInside : next < size
  vacantInside : vacant < size
  isHole : cell hole = none
  isVacant : cell vacant = none
  ahead : OnWay next hole vacant
  unique : ∀ one other key oneValue otherValue, one < size -> other < size ->
    cell one = some (key, oneValue) -> cell other = some (key, otherValue) -> one = other
  noGap : ∀ place key value, place < size -> cell place = some (key, value) ->
    ∀ other < size, OnWay (home key) place other -> (cell other).isSome ∨ other = hole
  scanned : ∀ place key value, place < size -> cell place = some (key, value) ->
    OnWay (behind size hole) next place -> ¬OnWay (home key) place hole

theorem Table.emptied (table : Table size home cell) (inside : place < size)
    (isCell : cell place = some (key, value)) {vacant : Nat} (vacantInside : vacant < size)
    (isVacant : cell vacant = none) :
    Shifting size home (update cell place none) place (behind size place) vacant := by
  have apart : vacant ≠ place := by
    rintro rfl
    rw [isVacant] at isCell
    cases isCell
  have kept {other : Nat} {pair : κ × ν} (isOther : update cell place none other = some pair) :
      cell other = some pair := by
    by_cases atOther : other = place
    · rw [atOther, update_self] at isOther
      cases isOther
    · rwa [update_of_ne atOther] at isOther
  have one := behind_cases size place
  refine ⟨table.home_lt, inside, behind_lt inside, vacantInside, update_self .., ?_, ?_, ?_, ?_, ?_⟩
  · rw [update_of_ne apart, isVacant]
  · unfold OnWay
    omega
  · intro one other found oneValue otherValue oneInside otherInside isOne isOther
    exact table.unique one other found oneValue otherValue oneInside otherInside (kept isOne)
      (kept isOther)
  · intro found foundKey foundValue foundInside isFound other otherInside onWay
    by_cases atOther : other = place
    · exact .inr atOther
    · rw [update_of_ne atOther]
      exact .inl (table.noGap found foundKey foundValue foundInside (kept isFound) other otherInside
        onWay)
  · intro found foundKey foundValue foundInside isFound onWay
    exact absurd onWay (not_onWay_self _ _)

section Shift

variable {hole next vacant : Nat}

section

variable (shifting : Shifting size home cell hole next vacant)

include shifting

section

variable (isNext : cell next = some (key, value))

include isNext

theorem Shifting.pass (between : Between hole next (home key)) :
    Shifting size home cell hole (behind size next) vacant := by
  obtain ⟨home_lt, holeInside, nextInside, vacantInside, isHole, isVacant, ahead, unique, noGap,
    scanned⟩ := shifting
  have apart : next ≠ vacant := by
    rintro rfl
    rw [isVacant] at isNext
    cases isNext
  have one := behind_cases size next
  refine ⟨home_lt, holeInside, behind_lt nextInside, vacantInside, isHole, isVacant, ?_, unique,
    noGap, ?_⟩
  · unfold OnWay at *
    omega
  · intro place found foundValue inside isFound onWay
    by_cases atPlace : place = next
    · subst atPlace
      rw [isNext] at isFound
      cases isFound
      unfold OnWay Between at *
      omega
    · refine scanned place found foundValue inside isFound ?_
      unfold OnWay at *
      omega

theorem Shifting.move (outside : ¬Between hole next (home key)) :
    Shifting size home (update (update cell hole (some (key, value))) next none) next
      (behind size next) vacant := by
  obtain ⟨home_lt, holeInside, nextInside, vacantInside, isHole, isVacant, ahead, unique, noGap,
    scanned⟩ := shifting
  have homeInside := home_lt key
  have apart : next ≠ vacant := by
    rintro rfl
    rw [isVacant] at isNext
    cases isNext
  have holeNext : hole ≠ next := by
    rintro rfl
    rw [isHole] at isNext
    cases isNext
  have vacantApart : vacant ≠ hole := by
    rintro rfl
    unfold OnWay at ahead
    omega
  have one := behind_cases size next
  -- what stands in the table now: the key in the hole, and all others where they were
  have stands {place : Nat} {pair : κ × ν}
      (isPlace : update (update cell hole (some (key, value))) next none place = some pair) :
      place ≠ next ∧ (place = hole ∧ pair = (key, value) ∨ place ≠ hole ∧ cell place = some pair) := by
    by_cases atNext : place = next
    · rw [atNext, update_self] at isPlace
      cases isPlace
    · rw [update_of_ne atNext] at isPlace
      by_cases atHole : place = hole
      · rw [atHole, update_self] at isPlace
        exact ⟨atNext, .inl ⟨atHole, (Option.some.inj isPlace).symm⟩⟩
      · rw [update_of_ne atHole] at isPlace
        exact ⟨atNext, .inr ⟨atHole, isPlace⟩⟩
  have filled {other : Nat} (isSome : (cell other).isSome ∨ other = hole) :
      (update (update cell hole (some (key, value))) next none other).isSome ∨ other = next := by
    by_cases atNext : other = next
    · exact .inr atNext
    · rw [update_of_ne atNext]
      by_cases atHole : other = hole
      · rw [atHole, update_self]
        exact .inl rfl
      · rw [update_of_ne atHole]
        exact .inl (isSome.resolve_right atHole)
  refine ⟨home_lt, nextInside, behind_lt nextInside, vacantInside, update_self .., ?_, ?_, ?_, ?_, ?_⟩
  · rw [update_of_ne apart.symm, update_of_ne vacantApart, isVacant]
  · unfold OnWay
    omega
  · intro one other found oneValue otherValue oneInside otherInside isOne isOther
    obtain ⟨oneNext, ⟨rfl, oneIs⟩ | ⟨oneHole, oneCell⟩⟩ := stands isOne <;>
      obtain ⟨otherNext, ⟨rfl, otherIs⟩ | ⟨otherHole, otherCell⟩⟩ := stands isOther
    · rfl
    · cases oneIs
      exact absurd (unique other next key otherValue value otherInside nextInside otherCell isNext)
        otherNext
    · cases otherIs
      exact absurd (unique one next key oneValue value oneInside nextInside oneCell isNext) oneNext
    · exact unique one other found oneValue otherValue oneInside otherInside oneCell otherCell
  · intro place found foundValue inside isFound other otherInside onWay
    obtain ⟨placeNext, ⟨rfl, isPair⟩ | ⟨placeHole, isFound⟩⟩ := stands isFound
    · cases isPair
      refine filled (noGap next key value nextInside isNext other otherInside ?_)
      unfold OnWay Between at *
      omega
    · exact filled (noGap place found foundValue inside isFound other otherInside onWay)
  · intro place found foundValue inside isFound onWay
    exact absurd onWay (not_onWay_self _ _)

end

theorem Shifting.done (isNext : cell next = none) : Table size home cell := by
  obtain ⟨home_lt, holeInside, nextInside, vacantInside, isHole, isVacant, ahead, unique, noGap,
    scanned⟩ := shifting
  refine ⟨home_lt, unique, fun place key value inside isCell other otherInside onWay => ?_⟩
  rcases noGap place key value inside isCell other otherInside onWay with occupied | atHole
  · exact occupied
  subst atHole
  have first := behind_cases size other
  have placeNext : place ≠ next := by
    rintro rfl
    rw [isNext] at isCell
    cases isCell
  by_cases before : OnWay (behind size other) next place
  · exact absurd onWay (scanned place key value inside isCell before)
  · -- beyond the vacant place, which the way from home then leads through too
    rcases noGap place key value inside isCell next nextInside
      (by unfold OnWay at *; omega) with occupied | atHole
    · rw [isNext] at occupied
      cases occupied
    · unfold OnWay at ahead
      omega

end

theorem Holds.move (holds : Holds size cell map) (holeInside : hole < size)
    (nextInside : next < size) (isHole : cell hole = none) (isNext : cell next = some (key, value)) :
    Holds size (update (update cell hole (some (key, value))) next none) map := by
  have apart : hole ≠ next := by
    rintro rfl
    rw [isHole] at isNext
    cases isNext
  intro found foundValue
  rw [holds found foundValue]
  constructor
  · rintro ⟨place, inside, isCell⟩
    by_cases atNext : place = next
    · subst atNext
      rw [isNext] at isCell
      exact ⟨hole, holeInside, by rw [update_of_ne apart, update_self, isCell]⟩
    · refine ⟨place, inside, ?_⟩
      rw [update_of_ne atNext, update_of_ne ?_, isCell]
      rintro rfl
      rw [isHole] at isCell
      cases isCell
  · rintro ⟨place, inside, isCell⟩
    by_cases atNext : place = next
    · rw [atNext, update_self] at isCell
      cases isCell
    rw [update_of_ne atNext] at isCell
    by_cases atHole : place = hole
    · rw [atHole, update_self] at isCell
      exact ⟨next, nextInside, isNext.trans isCell⟩
    · rw [update_of_ne atHole] at isCell
      exact ⟨place, inside, isCell⟩

theorem Shifting.ends (fuel : Nat) (shifting : Shifting size home cell hole next vacant)
    (holds : Holds size cell map) (enough : distance size next vacant < fuel) :
    ∃ after, shift size home fuel cell hole next = some after ∧ Table size home after ∧
      Holds size after map := by
  induction fuel generalizing cell hole next with
  | zero => omega
  | succ fuel ih =>
    unfold shift
    cases isNext : cell next with
    | none => exact ⟨cell, rfl, shifting.done isNext, holds⟩
    | some pair =>
      obtain ⟨key, value⟩ := pair
      have apart : next ≠ vacant := by
        rintro rfl
        rw [shifting.isVacant] at isNext
        cases isNext
      have nearer := distance_behind shifting.nextInside shifting.vacantInside apart
      by_cases between : Between hole next (home key)
      · simp only [if_pos between]
        exact ih (shifting.pass isNext between) holds (by omega)
      · simp only [if_neg between]
        exact ih (shifting.move isNext between)
          (holds.move shifting.holeInside shifting.nextInside shifting.isHole isNext) (by omega)

end Shift

theorem Holds.erase [DecidableEq κ] (table : Table size home cell) (holds : Holds size cell map)
    (inside : place < size) (isCell : cell place = some (key, value)) :
    Holds size (update cell place none) (update map key none) := by
  intro found foundValue
  by_cases same : found = key
  · subst same
    rw [update_self]
    refine iff_of_false (fun bound => by cases bound) ?_
    rintro ⟨other, otherInside, isOther⟩
    by_cases atOther : other = place
    · rw [atOther, update_self] at isOther
      cases isOther
    · rw [update_of_ne atOther] at isOther
      exact atOther (table.unique other place found foundValue value otherInside inside isOther
        isCell)
  · rw [update_of_ne same, holds found foundValue]
    constructor
    · rintro ⟨other, otherInside, isOther⟩
      refine ⟨other, otherInside, ?_⟩
      rw [update_of_ne ?_, isOther]
      rintro rfl
      rw [isCell] at isOther
      exact same (congrArg Prod.fst (Option.some.inj isOther)).symm
    · rintro ⟨other, otherInside, isOther⟩
      refine ⟨other, otherInside, ?_⟩
      by_cases atOther : other = place
      · rw [atOther, update_self] at isOther
        cases isOther
      · rwa [update_of_ne atOther] at isOther

end InlaySql.Lib.Probing
