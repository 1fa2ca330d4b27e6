import Mathlib

/-!
# Byte strings

Byte strings are lists of `UInt8`, ordered lexicographically. The module gives
little-endian fixed-width integers, bounds-checked slices and in-place writes,
with the laws that say what a slice reads after a write.
-/

namespace InlaySql.Lib

open List

/-- A byte string. -/
abbrev Bytes := List UInt8

instance instLinearOrderByte : LinearOrder UInt8 where
  le_refl _ := UInt8.le_refl _
  le_trans _ _ _ := UInt8.le_trans
  le_antisymm _ _ := UInt8.le_antisymm
  le_total := UInt8.le_total
  lt_iff_le_not_ge a b := by
    rw [UInt8.lt_iff_le_and_ne]
    constructor
    · rintro ⟨below, distinct⟩
      exact ⟨below, fun above => distinct (UInt8.le_antisymm below above)⟩
    · rintro ⟨below, notAbove⟩
      exact ⟨below, fun same => notAbove (same ▸ UInt8.le_refl _)⟩
  toDecidableLE := inferInstance

/-- The `width` low bytes of `value`, least significant first. -/
def leBytes : Nat -> Nat -> Bytes
  | 0, _ => []
  | width + 1, value => UInt8.ofNat value :: leBytes width (value / 256)

/-- The number a byte string spells, least significant byte first. -/
def ofLe : Bytes -> Nat
  | [] => 0
  | byte :: rest => byte.toNat + 256 * ofLe rest

@[simp] theorem length_leBytes (width value : Nat) : (leBytes width value).length = width := by
  induction width generalizing value with
  | zero => rfl
  | succ width ih => simp [leBytes, ih]

theorem ofLe_leBytes {width value : Nat} (fits : value < 256 ^ width) :
    ofLe (leBytes width value) = value := by
  induction width generalizing value with
  | zero => simp_all [leBytes, ofLe]
  | succ width ih =>
    have high : value / 256 < 256 ^ width := by
      rw [Nat.div_lt_iff_lt_mul (by decide)]
      simpa [Nat.pow_succ] using fits
    simp only [leBytes, ofLe, ih high, UInt8.toNat_ofNat']
    omega

theorem leBytes_ofLe (bytes : Bytes) : leBytes bytes.length (ofLe bytes) = bytes := by
  induction bytes with
  | nil => rfl
  | cons byte rest ih =>
    have small := byte.toNat_lt
    have low : UInt8.ofNat (byte.toNat + 256 * ofLe rest) = byte :=
      UInt8.toNat_inj.mp (by simp only [UInt8.toNat_ofNat']; omega)
    have high : (byte.toNat + 256 * ofLe rest) / 256 = ofLe rest := by omega
    rw [length_cons, ofLe, leBytes, low, high, ih]

theorem ofLe_lt (bytes : Bytes) : ofLe bytes < 256 ^ bytes.length := by
  induction bytes with
  | nil => simp [ofLe]
  | cons byte rest ih =>
    have small := byte.toNat_lt
    simp only [ofLe, length_cons, Nat.pow_succ]
    omega

/-- The `length` bytes from `start` on, cut short at the end of the string. -/
def slice (bytes : Bytes) (start length : Nat) : Bytes := (bytes.drop start).take length

/-- `slice::get(start..start + length)`. -/
def slice? (bytes : Bytes) (start length : Nat) : Option Bytes :=
  if start + length ≤ bytes.length then some (slice bytes start length) else none

/-- `copy_from_slice` of `data` over the bytes at `offset`. -/
def writeAt (buffer : Bytes) (offset : Nat) (data : Bytes) : Bytes :=
  buffer.take offset ++ data ++ buffer.drop (offset + data.length)

section Slice

variable {bytes buffer data : Bytes} {start length offset : Nat}

theorem length_slice (inside : start + length ≤ bytes.length) :
    (slice bytes start length).length = length := by
  simp [slice]
  omega

theorem getElem?_slice (index : Nat) :
    (slice bytes start length)[index]? = if index < length then bytes[start + index]? else none := by
  simp only [slice, getElem?_take, getElem?_drop]

section

variable (inside : offset + data.length ≤ buffer.length)

include inside

theorem length_writeAt : (writeAt buffer offset data).length = buffer.length := by
  simp [writeAt]
  omega

theorem getElem?_writeAt (index : Nat) : (writeAt buffer offset data)[index]? =
      if offset ≤ index ∧ index < offset + data.length then data[index - offset]?
      else buffer[index]? := by
  have taken : (buffer.take offset).length = offset := by simp; omega
  unfold writeAt
  by_cases before : index < offset
  · rw [getElem?_append_left (by simp; omega), getElem?_append_left (by omega),
      getElem?_take_of_lt before, if_neg (by omega)]
  · by_cases within : index < offset + data.length
    · rw [getElem?_append_left (by simp; omega), getElem?_append_right (by omega),
        taken, if_pos ⟨by omega, within⟩]
    · rw [getElem?_append_right (by simp; omega), if_neg (by omega), getElem?_drop]
      congr 1
      simp
      omega

theorem slice_writeAt_same : slice (writeAt buffer offset data) offset data.length = data := by
  apply ext_getElem?
  intro index
  rw [getElem?_slice, getElem?_writeAt inside]
  by_cases bound : index < data.length
  · rw [if_pos bound, if_pos (by omega), Nat.add_sub_cancel_left]
  · rw [if_neg bound, getElem?_eq_none (by omega)]

theorem slice_writeAt_disjoint (apart : start + length ≤ offset ∨ offset + data.length ≤ start) :
    slice (writeAt buffer offset data) start length = slice buffer start length := by
  apply ext_getElem?
  intro index
  rw [getElem?_slice, getElem?_slice, getElem?_writeAt inside]
  by_cases bound : index < length
  · rw [if_pos bound, if_pos bound, if_neg (by omega)]
  · rw [if_neg bound, if_neg bound]

theorem drop_writeAt :
    (writeAt buffer offset data).drop offset = data ++ buffer.drop (offset + data.length) := by
  have taken : (buffer.take offset).length = offset := by simp; omega
  rw [writeAt, append_assoc]
  exact drop_left' taken

theorem drop_writeAt_after (past : offset + data.length ≤ start) :
    (writeAt buffer offset data).drop start = buffer.drop start := by
  apply ext_getElem?
  intro index
  rw [getElem?_drop, getElem?_drop, getElem?_writeAt inside, if_neg (by omega)]

end

theorem slice_slice {inner count : Nat} (inside : inner + count ≤ length) :
    slice (slice bytes start length) inner count = slice bytes (start + inner) count := by
  apply ext_getElem?
  intro index
  simp only [getElem?_slice]
  by_cases bound : index < count
  · rw [if_pos bound, if_pos bound, if_pos (by omega), Nat.add_assoc]
  · rw [if_neg bound, if_neg bound]

theorem slice_append_left {front back : Bytes} (inside : start + length ≤ front.length) :
    slice (front ++ back) start length = slice front start length := by
  apply ext_getElem?
  intro index
  simp only [getElem?_slice]
  by_cases bound : index < length
  · rw [if_pos bound, if_pos bound, getElem?_append_left (by omega)]
  · rw [if_neg bound, if_neg bound]

theorem slice_append_right (front back : Bytes) (start length : Nat) :
    slice (front ++ back) (front.length + start) length = slice back start length := by
  rw [slice, slice, <- drop_drop, drop_left]

theorem slice_middle (front middle back : Bytes) :
    slice (front ++ middle ++ back) front.length middle.length = middle := by
  rw [append_assoc, <- Nat.add_zero front.length, slice_append_right, slice, drop_zero, take_left]

theorem slice_of_slice {known : Bytes} {inner count : Nat}
    (same : slice bytes start known.length = known) (inside : inner + count ≤ known.length) :
    slice bytes (start + inner) count = slice known inner count := by
  rw [<- slice_slice inside, same]

theorem slice?_eq_some (inside : start + length ≤ bytes.length) :
    slice? bytes start length = some (slice bytes start length) := by
  simp [slice?, inside]

end Slice

end InlaySql.Lib
