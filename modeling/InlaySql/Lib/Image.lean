import InlaySql.Lib.Bytes

/-!
# Byte-addressable images

An `Image` is the contents of a device: a byte at every address, zero where nothing
was ever written. Reads and writes are whole byte strings; what a read sees after a
write is decided address by address.
-/

namespace InlaySql.Lib

open List

/-- The byte at every address of a device. -/
structure Image where
  byte : Nat -> UInt8

namespace Image

/-- A device never written to. -/
def blank : Image := ⟨fun _ => 0⟩

/-- The `length` bytes from `offset` on. -/
def read (image : Image) (offset length : Nat) : Bytes :=
  (List.range length).map fun index => image.byte (offset + index)

/-- Put `data` at `offset`. -/
def write (image : Image) (offset : Nat) (data : Bytes) : Image where
  byte address := if offset ≤ address then data[address - offset]?.getD (image.byte address)
    else image.byte address

/-- Several writes in a row. -/
def writeAll (image : Image) (writes : List (Nat × Bytes)) : Image :=
  writes.foldl (fun image write => image.write write.1 write.2) image

variable {image later : Image} {offset length : Nat} {data : Bytes}

theorem eq_of_byte (same : ∀ address, later.byte address = image.byte address) : later = image := by
  cases later
  cases image
  exact congrArg mk (funext same)

@[simp] theorem length_read (image : Image) (offset length : Nat) :
    (image.read offset length).length = length := by
  simp [read]

theorem getElem?_read (image : Image) (offset length index : Nat) :
    (image.read offset length)[index]? =
      if index < length then some (image.byte (offset + index)) else none := by
  unfold read
  rw [getElem?_map]
  split
  · rename_i inside
    rw [getElem?_range inside]
    rfl
  · rename_i outside
    rw [getElem?_eq_none (by simpa using outside)]
    rfl

theorem read_congr (same : ∀ address, offset ≤ address -> address < offset + length ->
      later.byte address = image.byte address) :
    later.read offset length = image.read offset length := by
  apply ext_getElem?
  intro index
  rw [getElem?_read, getElem?_read]
  split
  · rw [same (offset + index) (by omega) (by omega)]
  · rfl

theorem read_add (image : Image) (offset first second : Nat) : image.read offset (first + second) =
      image.read offset first ++ image.read (offset + first) second := by
  apply ext_getElem?
  intro index
  rw [getElem?_read]
  by_cases before : index < first
  · rw [getElem?_append_left (by simpa using before), getElem?_read, if_pos before,
      if_pos (by omega)]
  · rw [getElem?_append_right (by simpa using before), getElem?_read, length_read]
    by_cases inside : index < first + second
    · rw [if_pos inside, if_pos (by omega), show offset + first + (index - first) = offset + index by
        omega]
    · rw [if_neg inside, if_neg (by omega)]

theorem slice_read (image : Image) {start part : Nat} (inside : start + part ≤ length) :
    slice (image.read offset length) start part = image.read (offset + start) part := by
  apply ext_getElem?
  intro index
  rw [getElem?_slice, getElem?_read, getElem?_read, Nat.add_assoc]
  split
  · rw [if_pos (by omega)]
  · rfl

theorem take_read (image : Image) {part : Nat} (inside : part ≤ length) :
    (image.read offset length).take part = image.read offset part := by
  have whole : slice (image.read offset length) 0 part = image.read (offset + 0) part :=
    slice_read image (by omega)
  simpa [slice] using whole

theorem byte_write_outside {address : Nat}
    (outside : address < offset ∨ offset + data.length ≤ address) :
    (image.write offset data).byte address = image.byte address := by
  simp only [write]
  split
  · rw [getElem?_eq_none (by omega), Option.getD_none]
  · rfl

theorem byte_write_inside {index : Nat} {value : UInt8} (found : data[index]? = some value) :
    (image.write offset data).byte (offset + index) = value := by
  simp only [write]
  rw [if_pos (by omega), Nat.add_sub_cancel_left, found, Option.getD_some]

theorem read_write (image : Image) (offset : Nat) (data : Bytes) :
    (image.write offset data).read offset data.length = data := by
  apply ext_getElem?
  intro index
  rw [getElem?_read]
  split
  · rename_i inside
    rw [getElem?_eq_getElem inside]
    congr 1
    exact byte_write_inside (getElem?_eq_getElem inside)
  · rename_i outside
    rw [getElem?_eq_none (by omega)]

theorem read_write_outside {start : Nat}
    (apart : start + length ≤ offset ∨ offset + data.length ≤ start) :
    (image.write offset data).read start length = image.read start length := by
  apply read_congr
  intro address low high
  exact byte_write_outside (by omega)

theorem write_same (same : image.read offset data.length = data) :
    image.write offset data = image := by
  apply eq_of_byte
  intro address
  by_cases inside : offset ≤ address ∧ address < offset + data.length
  · obtain ⟨index, rfl⟩ := Nat.exists_eq_add_of_le inside.1
    have found : data[index]? = some (image.byte (offset + index)) := by
      rw [<- same, getElem?_read, if_pos (by simpa using inside.2)]
    exact byte_write_inside found
  · exact byte_write_outside (by omega)

theorem read_write_take (image : Image) (offset kept : Nat) (data : Bytes) :
    (image.write offset (data.take kept)).read offset data.length =
      data.take kept ++ (image.read offset data.length).drop kept := by
  apply ext_getElem?
  intro index
  rw [getElem?_read]
  have taken : (data.take kept).length = min kept data.length := by simp
  by_cases inside : index < data.length
  · rw [if_pos inside]
    by_cases front : index < kept
    · have found : (data.take kept)[index]? = some data[index] := by
        rw [getElem?_take_of_lt front, getElem?_eq_getElem inside]
      rw [getElem?_append_left (by omega), found, byte_write_inside found]
    · rw [getElem?_append_right (by omega), getElem?_drop, getElem?_read,
        byte_write_outside (by omega)]
      rw [if_pos (by omega), show kept + (index - (data.take kept).length) = index by omega]
  · rw [if_neg inside, getElem?_eq_none]
    simp
    omega

theorem write_take_take (image : Image) (offset first second : Nat) (data : Bytes) :
    (image.write offset (data.take first)).write offset (data.take second) =
      image.write offset (data.take (max first second)) := by
  apply eq_of_byte
  intro address
  have lengths : ∀ kept, (data.take kept).length = min kept data.length := fun kept => by simp
  by_cases inside : offset ≤ address ∧ address < offset + data.length
  · obtain ⟨index, rfl⟩ := Nat.exists_eq_add_of_le inside.1
    have known : ∀ (base : Image) kept, (base.write offset (data.take kept)).byte (offset + index) =
        if index < kept then data[index]?.getD 0 else base.byte (offset + index) := by
      intro base kept
      split
      · rename_i front
        have found : (data.take kept)[index]? = some (data[index]?.getD 0) := by
          rw [getElem?_take_of_lt front, getElem?_eq_getElem (by omega), Option.getD_some]
        exact byte_write_inside found
      · exact byte_write_outside (by have := lengths kept; omega)
    rw [known, known, known]
    split_ifs <;> first | rfl | omega
  · rw [byte_write_outside (by have := lengths second; omega),
      byte_write_outside (by have := lengths first; omega),
      byte_write_outside (by have := lengths (max first second); omega)]

theorem byte_write_cases (offset : Nat) (data : Bytes) (address : Nat) :
    (∃ value, ∀ image : Image, (image.write offset data).byte address = value) ∨
      ∀ image : Image, (image.write offset data).byte address = image.byte address := by
  by_cases inside : offset ≤ address ∧ address < offset + data.length
  · obtain ⟨index, rfl⟩ := Nat.exists_eq_add_of_le inside.1
    have short : index < data.length := by omega
    exact .inl ⟨data[index], fun image => byte_write_inside (getElem?_eq_getElem short)⟩
  · exact .inr fun image => byte_write_outside (by omega)

theorem byte_writeAll_cases (writes : List (Nat × Bytes)) (address : Nat) :
    (∃ value, ∀ image : Image, (image.writeAll writes).byte address = value) ∨
      ∀ image : Image, (image.writeAll writes).byte address = image.byte address := by
  induction writes with
  | nil => exact .inr fun image => rfl
  | cons write writes ih =>
    rcases ih with ⟨value, fixed⟩ | kept
    · exact .inl ⟨value, fun image => fixed _⟩
    · rcases byte_write_cases write.1 write.2 address with ⟨value, fixed⟩ | same
      · exact .inl ⟨value, fun image => (kept _).trans (fixed image)⟩
      · exact .inr fun image => (kept _).trans (same image)

variable {writes : List (Nat × Bytes)}

theorem byte_writeAll_outside {address : Nat}
    (outside : ∀ write ∈ writes, address < write.1 ∨ write.1 + write.2.length ≤ address) :
    (image.writeAll writes).byte address = image.byte address := by
  induction writes generalizing image with
  | nil => rfl
  | cons write writes ih =>
    have rest := @ih (image.write write.1 write.2) fun other member =>
      outside other (mem_cons_of_mem _ member)
    exact rest.trans (byte_write_outside (outside write (by simp)))

/-- Writes that change nothing in one image change nothing in another that differs
from it only where they do not write. -/
theorem writeAll_same (same : image.writeAll writes = image)
    (agree : ∀ address, later.byte address = image.byte address ∨ ∀ write ∈ writes, address <
      write.1 ∨ write.1 + write.2.length ≤ address) :
    later.writeAll writes = later := by
  apply eq_of_byte
  intro address
  rcases agree address with equal | outside
  · rcases byte_writeAll_cases writes address with ⟨value, fixed⟩ | kept
    · have here : image.byte address = value := by
        rw [<- fixed image, same]
      rw [fixed later, equal, here]
    · exact kept later
  · exact byte_writeAll_outside outside

end Image

end InlaySql.Lib
