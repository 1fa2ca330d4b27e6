import Mathlib

/-!
# Grouping a list into buckets

A counting sort: count the items of each bucket, sum the counts into the place each
bucket starts at, and put every item at the next free place of its bucket. The items
of a bucket end up next to each other, in the order of the list.
-/

namespace InlaySql.Lib.Buckets

open List

variable {α : Type} (bucket : α -> Nat)

/-- How many items each bucket has. -/
def counts (buckets : Nat) (items : List α) : List Nat :=
  items.foldl (fun counts item => counts.modify (bucket item) (· + 1)) (List.replicate buckets 0)

/-- Where each bucket starts, and where the last one ends. -/
def offsets (buckets : Nat) (items : List α) : List Nat :=
  (counts bucket buckets items).scanl (· + ·) 0

/-- Put one item at the cursor of its bucket. -/
def place (state : List Nat × List α) (item : α) : List Nat × List α :=
  let slot := (state.1[bucket item]?).getD 0
  (state.1.set (bucket item) (slot + 1), state.2.set slot item)

/-- The items, grouped. -/
def grouped (filler : α) (buckets : Nat) (items : List α) : List α :=
  (items.foldl (place bucket)
    ((offsets bucket buckets items).take buckets, List.replicate items.length filler)).2

/-- The items of a bucket, in order. -/
def members (items : List α) (number : Nat) : List α :=
  items.filter fun item => bucket item == number

/-- How many items come before a bucket. -/
def before (items : List α) (number : Nat) : Nat :=
  (items.filter fun item => decide (bucket item < number)).length

section Counting

variable (items : List α) (number : Nat)

theorem members_append (more : List α) (number : Nat) : members bucket (items ++ more) number =
      members bucket items number ++ members bucket more number :=
  filter_append ..

theorem before_succ : before bucket items (number + 1) =
      before bucket items number + (members bucket items number).length := by
  simp only [before, members, <- countP_eq_length_filter]
  induction items with
  | nil => rfl
  | cons item items ih =>
    have split : (if bucket item < number + 1 then 1 else 0) =
        (if bucket item < number then 1 else 0) + (if bucket item = number then 1 else 0) := by
      split <;> split <;> split <;> omega
    simp only [countP_cons, decide_eq_true_eq, beq_iff_eq]
    omega

theorem before_mono {low high : Nat} (le : low ≤ high) :
    before bucket items low ≤ before bucket items high := by
  induction le with
  | refl => exact Nat.le_refl _
  | step _ ih => exact ih.trans (before_succ bucket items _ ▸ Nat.le_add_right _ _)

theorem before_le : before bucket items number ≤ items.length :=
  length_filter_le ..

theorem getElem?_foldl_modify (start : List Nat) (number : Nat) :
    (items.foldl (fun counts item => counts.modify (bucket item) (· + 1)) start)[number]? =
      start[number]?.map (· + (members bucket items number).length) := by
  induction items generalizing start with
  | nil => simp [members]
  | cons item items ih =>
    rw [foldl_cons, ih, List.getElem?_modify]
    by_cases same : bucket item = number
    · simp only [members, same, filter_cons, beq_self_eq_true, if_true, length_cons]
      cases start[number]? with
      | none => rfl
      | some count => exact congrArg some (by simp only []; omega)
    · have ne : (bucket item == number) = false := by simpa using same
      simp [members, same, ne]

theorem getElem?_counts {buckets number : Nat} (inside : number < buckets) (items : List α) :
    (counts bucket buckets items)[number]? = some (members bucket items number).length := by
  rw [counts, getElem?_foldl_modify]
  simp [inside]

theorem getElem?_offsets {buckets number : Nat} (inside : number ≤ buckets) (items : List α) :
    (offsets bucket buckets items)[number]? = some (before bucket items number) := by
  induction number with
  | zero =>
    rw [offsets, getElem?_scanl_zero]
    simp [before]
  | succ number ih =>
    have within : number < buckets := by omega
    have earlier := ih (by omega)
    rw [offsets, getElem?_succ_scanl]
    rw [offsets] at earlier
    rw [earlier, getElem?_counts bucket within, before_succ]
    rfl

end Counting

/-- What placing the items of `done` has established. -/
structure Placed (buckets : Nat) (items done : List α) (state : List Nat × List α) : Prop where
  cursors : ∀ number < buckets,
    state.1[number]? = some (before bucket items number + (members bucket done number).length)
  length : state.2.length = items.length
  placed : ∀ number < buckets, ∀ index < (members bucket done number).length,
    state.2[before bucket items number + index]? = (members bucket done number)[index]?

section Placing

variable {buckets : Nat} {items done : List α} {state : List Nat × List α}

theorem Placed.start (buckets : Nat) (items : List α) (filler : α) : Placed bucket buckets items []
      ((offsets bucket buckets items).take buckets, List.replicate items.length filler) where
  cursors number inside := by
    simp [inside, getElem?_offsets bucket inside.le, members]
  length := length_replicate
  placed number _ index small := by simp [members] at small

variable {bucket}

theorem Placed.next {item : α} {rest : List α} (inside : ∀ item ∈ items, bucket item < buckets)
    (isWhole : items = done ++ item :: rest) (placed : Placed bucket buckets items done state) :
    Placed bucket buckets items (done ++ [item]) (place bucket state item) := by
  have isItem : item ∈ items := by simp [isWhole]
  have small : bucket item < buckets := inside item isItem
  have room : ∀ number, (members bucket done number).length +
      (if bucket item = number then 1 else 0) ≤ (members bucket items number).length := by
    intro number
    rw [isWhole, members_append, length_append]
    by_cases same : bucket item = number
    · simp [members, same]
    · simp [same]
  have isSlot : (state.1[bucket item]?).getD 0 =
      before bucket items (bucket item) + (members bucket done (bucket item)).length := by
    rw [placed.cursors _ small]
    rfl
  have slotRoom := room (bucket item)
  rw [if_pos rfl] at slotRoom
  have slotEnd := before_succ bucket items (bucket item)
  have slotSmall : before bucket items (bucket item) + (members bucket done (bucket item)).length <
      items.length := by
    have total := before_le bucket items (bucket item + 1)
    omega
  have grown : ∀ number, members bucket (done ++ [item]) number =
      members bucket done number ++ (if bucket item = number then [item] else []) := by
    intro number
    by_cases same : bucket item = number <;> simp [members, same]
  constructor
  · intro number isNumber
    rw [place, isSlot, getElem?_set, grown]
    by_cases same : bucket item = number
    · subst same
      have bound : bucket item < state.1.length := by
        have found := placed.cursors _ small
        exact (List.getElem?_eq_some_iff.mp found).1
      simp [bound]
      omega
    · simp [same, placed.cursors number isNumber]
  · rw [place, length_set, placed.length]
  · intro number isNumber index isIndex
    rw [place, isSlot, getElem?_set]
    rw [grown] at isIndex ⊢
    by_cases same : bucket item = number
    · subst same
      rw [if_pos rfl, length_append, length_singleton] at isIndex
      rcases Nat.lt_or_ge index (members bucket done (bucket item)).length with less | more
      · rw [if_neg (by omega), placed.placed _ small index less, getElem?_append_left less]
      · obtain rfl : index = (members bucket done (bucket item)).length := by omega
        rw [if_pos rfl, if_pos (by rw [placed.length]; exact slotSmall)]
        simp
    · rw [if_neg same, append_nil] at isIndex ⊢
      have numberRoom := room number
      have numberEnd := before_succ bucket items number
      have apart : before bucket items (bucket item) + (members bucket done (bucket item)).length ≠
          before bucket items number + index := by
        rcases Nat.lt_or_gt_of_ne same with less | more
        · have later := before_mono bucket items (Nat.succ_le_of_lt less)
          simp only [Nat.succ_eq_add_one] at later
          omega
        · have later := before_mono bucket items (Nat.succ_le_of_lt more)
          simp only [Nat.succ_eq_add_one] at later
          omega
      rw [if_neg apart]
      exact placed.placed number isNumber index isIndex

theorem Placed.foldl {todo : List α} (inside : ∀ item ∈ items, bucket item < buckets)
    (isWhole : items = done ++ todo) (placed : Placed bucket buckets items done state) :
    Placed bucket buckets items items (todo.foldl (place bucket) state) := by
  induction todo generalizing done state with
  | nil =>
    rw [append_nil] at isWhole
    rwa [<- isWhole] at placed
  | cons item todo ih =>
    refine ih ?_ (placed.next inside isWhole)
    rw [isWhole, append_assoc]
    rfl

end Placing

theorem run_grouped {buckets number : Nat} (filler : α) {items : List α}
    (inside : ∀ item ∈ items, bucket item < buckets) (isNumber : number < buckets) :
    ((grouped bucket filler buckets items).drop (before bucket items number)).take
        (before bucket items (number + 1) - before bucket items number) =
      members bucket items number := by
  have placed := (Placed.start bucket buckets items filler).foldl inside (nil_append items).symm
  have width := before_succ bucket items number
  refine ext_getElem? fun index => ?_
  rw [getElem?_take, getElem?_drop]
  by_cases small : index < (members bucket items number).length
  · rw [if_pos (by omega)]
    exact placed.placed number isNumber index small
  · rw [if_neg (by omega), getElem?_eq_none (by omega)]

end InlaySql.Lib.Buckets
