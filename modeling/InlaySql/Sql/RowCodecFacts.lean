import InlaySql.Sql.RowCodec

/-!
# What the decoders of a row agree on

Every decoder stops at the same places: skipping a value leaves the cursor where decoding
it does. So decoders with different masks read the same columns at the same positions, and
differ only in what they look at. A row is read back exactly when every count in it is a
`u32`.
-/

namespace InlaySql.Sql.RowCodec

open List Lib Sql
open Stateful Reader
open Cursor (take u8 u32 count many)
open Eval (ValueRef)

/-! ## Reading back -/

/-- A value whose length is a `u32` and whose integer is an `i64`. -/
def Small : Value -> Prop
  | .integer value => -2 ^ 63 ≤ value ∧ value < 2 ^ 63
  | .text value => (utf8 value).length < 2 ^ 32
  | .blob value => value.length < 2 ^ 32
  | .vector lanes => lanes.length < 2 ^ 32
  | .null | .real _ => True

/-- A row of as many values as a `u32` counts, each of them small. -/
structure SmallRow (row : Row) : Prop where
  width : row.length < 2 ^ 32
  values : ∀ value ∈ row, Small value

section RoundTrip

variable (dequantize : UInt8 -> UInt32 -> UInt32)

theorem readI64_putI64 {value : Int} (fits : -2 ^ 63 ≤ value ∧ value < 2 ^ 63) :
    readI64 (putI64 value) = value := by
  have small : (value % 2 ^ 64).toNat < 256 ^ 8 := by omega
  simp only [readI64, putI64, ofLe_leBytes small]
  split <;> omega

theorem readI64_range {bytes : Bytes} (eight : bytes.length = 8) :
    -2 ^ 63 ≤ readI64 bytes ∧ readI64 bytes < 2 ^ 63 := by
  have small := ofLe_lt bytes
  rw [eight] at small
  unfold readI64
  dsimp only
  split <;> omega

theorem reads_lane (bits : UInt32) : Reads lane (leBytes 4 bits.toNat) bits := by
  have four : (leBytes 4 bits.toNat).length = 4 := length_leBytes 4 _
  have read := (Reads.take Error.corrupt (leBytes 4 bits.toNat)).map
    (f := fun taken => UInt32.ofNat (ofLe taken))
  rw [four, ofLe_leBytes (show bits.toNat < 256 ^ 4 from bits.toNat_lt), UInt32.ofNat_toNat] at read
  exact read

theorem reads_tagged {rest : UInt8 -> Reader Error Value} {tag : UInt8} {payload : Bytes}
    {value : Value} (reads : Reads (rest tag) payload value) :
    Reads (u8 Error.corrupt >>= rest) (tag :: payload) value :=
  (Reads.u8 Error.corrupt tag).bind reads

theorem reads_decodeValue {value : Value} (small : Small value) :
    Reads (decodeValue dequantize) (encodeValue value) value := by
  cases value with
  | null => exact reads_tagged (.pure _)
  | integer value =>
    have eight : (putI64 value).length = 8 := length_leBytes 8 _
    have read := (Reads.take Error.corrupt (putI64 value)).map
      (f := fun taken => Value.integer (readI64 taken))
    rw [eight, readI64_putI64 small] at read
    exact reads_tagged read
  | real value =>
    have eight : (leBytes 8 value.bits.toNat).length = 8 := length_leBytes 8 _
    have read := (Reads.take Error.corrupt (leBytes 8 value.bits.toNat)).map
      (f := fun taken => Value.real ⟨UInt64.ofNat (ofLe taken)⟩)
    rw [eight, ofLe_leBytes (show value.bits.toNat < 256 ^ 8 from value.bits.toNat_lt),
      UInt64.ofNat_toNat] at read
    exact reads_tagged read
  | text value =>
    refine reads_tagged ((Reads.u32 Error.corrupt small).bind ?_)
    refine Reads.cast ((Reads.take Error.corrupt (utf8 value)).bind ?_) (append_nil _)
    simp only [fromUtf8_utf8]
    exact .pure _
  | blob value =>
    exact reads_tagged ((Reads.u32 Error.corrupt small).bind
      ((Reads.take Error.corrupt value).map (f := Value.blob)))
  | vector lanes =>
    refine reads_tagged (.count small ?_ ((Reads.many fun lane _ => reads_lane lane).map
      (f := Value.vector)))
    exact Reads.length_flatMap lanes _ fun lane _ => (length_leBytes 4 lane.toNat).ge

theorem yields_decodeValue : Yields (decodeValue dequantize) Small := by
  refine .after fun tag => ?_
  split
  · exact .pure trivial
  split
  · exact (Yields.take Error.corrupt 8).bind fun _ eight => .pure (readI64_range eight)
  split
  · exact .after fun _ => .pure trivial
  split
  · refine Yields.u32.bind fun length short => (Yields.take Error.corrupt length).bind fun bytes same => ?_
    cases decoded : fromUtf8 bytes with
    | none => exact .fail _
    | some text =>
      refine .pure ?_
      rw [Small, length_of_fromUtf8 decoded, same]
      exact short
  split
  · refine Yields.u32.bind fun length short => (Yields.take Error.corrupt length).bind fun bytes same => ?_
    exact .pure (by rwa [Small, same])
  split
  · refine (Yields.count 4).bind fun dim short => ?_
    refine (Yields.many (Yields.trivial lane) dim).bind fun lanes same => .pure ?_
    rw [Small, same.1]
    exact short
  split
  · refine (Yields.count 1).bind fun dim short => .after fun scale => ?_
    refine (Yields.take Error.corrupt dim).bind fun codes same => .pure ?_
    rw [Small, toF32, length_map, same]
    exact short
  · exact .fail _

theorem length_encodeValue (value : Value) : 1 ≤ (encodeValue value).length := by
  cases value <;> simp [encodeValue]

end RoundTrip

/-! ## The columns through a cursor -/

section Columns

variable {α β : Type} (decode : Reader Error α) (null : α) (wants : Nat -> Bool)

/-- One column: decoded, or stepped over. -/
def column (ordinal : Nat) : Reader Error α :=
  if wants ordinal then decode
  else do
    skipValue
    return null

/-- The columns from `ordinal` on, so many of them. -/
def columns : Nat -> Nat -> Reader Error (List α)
  | 0, _ => pure []
  | left + 1, ordinal => do
      let first <- column decode null wants ordinal
      let rest <- columns left (ordinal + 1)
      return first :: rest

variable {decode null wants}

variable (left ordinal : Nat)

theorem columns_succ : columns decode null wants (left + 1) ordinal = (do
      let first <- column decode null wants ordinal
      let rest <- columns decode null wants left (ordinal + 1)
      return first :: rest) := rfl

theorem fill_append (out : List α) (cursor : Cursor) :
    fill decode null wants left ordinal out cursor =
      ((fill decode null wants left ordinal [] cursor).1,
        out ++ (fill decode null wants left ordinal [] cursor).2) := by
  induction left generalizing ordinal out cursor with
  | zero => simp [fill]
  | succ left ih =>
    rw [fill, fill]
    split
    · cases ran : decode cursor with
      | mk answer next =>
        cases answer with
        | error fault => simp
        | ok value =>
          dsimp only
          rw [ih _ (out ++ [value]), ih _ ([] ++ [value])]
          simp
    · cases ran : skipValue cursor with
      | mk answer next =>
        cases answer with
        | error fault => simp
        | ok value =>
          dsimp only
          rw [ih _ (out ++ [null]), ih _ ([] ++ [null])]
          simp

theorem fill_returned (cursor : Cursor) : (fill decode null wants left ordinal [] cursor).returned =
      (columns decode null wants left ordinal cursor).1 := by
  induction left generalizing ordinal cursor with
  | zero => rfl
  | succ left ih =>
    have appended (value : α) (next : Cursor) :
        (fill decode null wants left (ordinal + 1) [value] next).returned =
          ((columns decode null wants left (ordinal + 1) next).1).map (value :: ·) := by
      rw [fill_append, Filled.returned]
      rw [<- ih (ordinal + 1) next, Filled.returned]
      cases (fill decode null wants left (ordinal + 1) [] next).1 <;> rfl
    have follow (value : α) (next : Cursor) :
        ((columns decode null wants left (ordinal + 1) >>= fun rest =>
          (pure (value :: rest) : Reader Error (List α))) next).1 =
          ((columns decode null wants left (ordinal + 1) next).1).map (value :: ·) := by
      rw [bind_apply]
      cases columns decode null wants left (ordinal + 1) next with
      | mk answer later => cases answer <;> rfl
    rw [fill, columns_succ, column]
    split
    · rw [bind_apply]
      cases ran : decode cursor with
      | mk answer next =>
        cases answer with
        | error fault => rfl
        | ok value => exact (appended value next).trans (follow value next).symm
    · rw [bind_assoc, bind_apply]
      cases ran : skipValue cursor with
      | mk answer next =>
        cases answer with
        | error fault => rfl
        | ok value =>
          dsimp only
          rw [pure_bind]
          exact (appended null next).trans (follow null next).symm

theorem fillRow_append (mask : ColumnMask) (bytes : Bytes) (out : List α) :
    fillRow decode null mask bytes out =
      ((fillRow decode null mask bytes []).1, out ++ (fillRow decode null mask bytes []).2) := by
  unfold fillRow
  cases count Error.corrupt 1 (Cursor.new bytes) with
  | mk answer next =>
    cases answer with
    | error fault => simp
    | ok count => exact fill_append count 0 out next

theorem fillRow_returned (mask : ColumnMask) (bytes : Bytes) :
    (fillRow decode null mask bytes []).returned =
      ((count Error.corrupt 1 >>= fun count => columns decode null mask.wants count 0)
        (Cursor.new bytes)).1 := by
  rw [fillRow, bind_apply]
  cases count Error.corrupt 1 (Cursor.new bytes) with
  | mk answer next =>
    cases answer with
    | error fault => rfl
    | ok count => exact fill_returned count 0 next

theorem columns_map {read : Reader Error β} {f : β -> α} {nothing : β}
    (same : decode = (do return f (<- read))) (isNull : null = f nothing) (left ordinal : Nat) :
    columns decode null wants left ordinal = (do
      return (<- columns read nothing wants left ordinal).map f) := by
  induction left generalizing ordinal with
  | zero => simp [columns]
  | succ left ih =>
    have one : column decode null wants ordinal = (do
        return f (<- column read nothing wants ordinal)) := by
      unfold column
      split
      · exact same
      · simp [isNull]
    rw [columns_succ, columns_succ, one, ih]
    simp

theorem columns_add (first rest ordinal : Nat) :
    columns decode null wants (first + rest) ordinal = (do
      let front <- columns decode null wants first ordinal
      let back <- columns decode null wants rest (ordinal + first)
      return front ++ back) := by
  induction first generalizing ordinal with
  | zero => simp [columns]
  | succ first ih =>
    rw [Nat.add_right_comm, columns_succ, columns_succ, ih]
    simp [Nat.add_right_comm, Nat.add_assoc]

section

variable {left ordinal : Nat} {cursor next : Cursor} {cells : List α}

theorem columns_nulls (unwanted : ∀ position < left, wants (ordinal + position) = false)
    (ran : columns decode null wants left ordinal cursor = (.ok cells, next)) :
    cells = List.replicate left null := by
  induction left generalizing ordinal cursor cells with
  | zero => cases ran; rfl
  | succ left ih =>
    obtain ⟨first, middle, ranFirst, ran⟩ := bind_eq_ok ran
    obtain ⟨rest, final, ranRest, ran⟩ := bind_eq_ok ran
    cases ran
    have here : wants ordinal = false := unwanted 0 (Nat.succ_pos left)
    rw [column, if_neg (by simp [here])] at ranFirst
    obtain ⟨_, between, ranSkip, ranFirst⟩ := bind_eq_ok ranFirst
    cases ranFirst
    rw [replicate_succ, ih (fun position inside => ?_) ranRest]
    have later := unwanted (position + 1) (by omega)
    rwa [show ordinal + 1 + position = ordinal + (position + 1) by omega]

theorem length_columns (ran : columns decode null wants left ordinal cursor = (.ok cells, next)) :
    cells.length = left := by
  induction left generalizing ordinal cursor cells with
  | zero => cases ran; rfl
  | succ left ih =>
    rw [columns_succ] at ran
    obtain ⟨first, middle, -, ran⟩ := bind_eq_ok ran
    obtain ⟨rest, final, ranRest, ran⟩ := bind_eq_ok ran
    cases ran
    rw [length_cons, ih ranRest]

end

end Columns

section Rows

variable (dequantize : UInt8 -> UInt32 -> UInt32)

theorem decodeValue_eq : decodeValue dequantize = (do
    return (<- decodeValueRef dequantize).toOwnedValue) := by
  unfold decodeValue decodeValueRef
  rw [bind_assoc]
  congr 1
  funext tag
  have refused (message : String) : (Cursor.refuse message : Reader Error Value) = (do
      return ValueRef.toOwnedValue (<- (Cursor.refuse message : Reader Error ValueRef))) := rfl
  split
  · rfl
  split
  · rw [bind_assoc]; rfl
  split
  · rw [bind_assoc]; rfl
  split
  · rw [bind_assoc]
    congr 1
    funext length
    rw [bind_assoc]
    congr 1
    funext bytes
    cases fromUtf8 bytes <;> rfl
  split
  · simp only [bind_assoc, pure_bind]
    rfl
  split
  · simp only [bind_assoc, pure_bind]
    rfl
  split
  · simp only [bind_assoc, pure_bind]
    rfl
  · exact refused _

theorem columns_ref (wants : Nat -> Bool) (left ordinal : Nat) :
    columns (decodeValue dequantize) .null wants left ordinal = (do
      return (<- columns (decodeValueRef dequantize) .null wants left ordinal).map
        ValueRef.toOwnedValue) :=
  columns_map (decodeValue_eq dequantize) (show Value.null = ValueRef.toOwnedValue .null from rfl)
    left ordinal

theorem columns_ref_eq_ok {wants : Nat -> Bool} {left ordinal : Nat} {cursor next : Cursor}
    {cells : List ValueRef}
    (ran : columns (decodeValueRef dequantize) .null wants left ordinal cursor = (.ok cells, next)) :
    columns (decodeValue dequantize) .null wants left ordinal cursor =
      (.ok (cells.map ValueRef.toOwnedValue), next) := by
  rw [columns_ref, bind_of_ok ran]
  rfl

theorem columns_all (left ordinal : Nat) :
    columns (decodeValue dequantize) .null ColumnMask.all.wants left ordinal =
      many (decodeValue dequantize) left := by
  induction left generalizing ordinal with
  | zero => rfl
  | succ left ih =>
    rw [columns_succ, ih]
    rfl

theorem decodeRow_eq (bytes : Bytes) : decodeRow dequantize bytes =
      ((count Error.corrupt 1 >>= many (decodeValue dequantize)) (Cursor.new bytes)).1 := by
  rw [decodeRow, decodeRowMasked, decodeRowMaskedOnto, fillRow_returned]
  simp only [columns_all]

theorem decodeRow_encodeRow {row : Row} (small : SmallRow row) :
    decodeRow dequantize (encodeRow row) = .ok row := by
  have read : Reads (count Error.corrupt 1 >>= many (decodeValue dequantize))
      (leBytes 4 row.length ++ row.flatMap encodeValue) row :=
    .counted le_rfl small.width (fun value _ => length_encodeValue value)
      fun value member => reads_decodeValue dequantize (small.values value member)
  obtain ⟨later, ran⟩ := read [] [] []
  rw [nil_append, append_nil] at ran
  rw [decodeRow_eq, encodeRow]
  exact congrArg Prod.fst ran

theorem smallRow_of_decodeRow {bytes : Bytes} {row : Row}
    (decoded : decodeRow dequantize bytes = .ok row) : SmallRow row := by
  rw [decodeRow_eq] at decoded
  have yields : Yields (count Error.corrupt 1 >>= many (decodeValue dequantize)) fun values =>
      values.length < 2 ^ 32 ∧ ∀ value ∈ values, Small value :=
    .counted (yields_decodeValue dequantize)
  obtain ⟨width, values⟩ := yields (Cursor.new bytes) row _ (Prod.ext decoded rfl)
  exact ⟨width, values⟩

end Rows

/-! ## Skipping and decoding stop at the same place -/

variable {cursor next : Cursor} {number : Nat} (dequantize : UInt8 -> UInt32 -> UInt32)
  (bytes : Bytes) (mask : ColumnMask)

theorem take_eq_ok {length : Nat} {taken : Bytes}
    (ran : take Error.corrupt length cursor = (.ok taken, next)) :
    cursor.pos + length ≤ cursor.bytes.length ∧
      next = { cursor with pos := cursor.pos + length } := by
  unfold Cursor.take at ran
  split at ran
  · cases ran
  · rename_i inside
    rw [slice?_eq_some (by omega)] at ran
    cases ran
    exact ⟨by omega, rfl⟩

theorem take_of_inside {length : Nat} (inside : cursor.pos + length ≤ cursor.bytes.length) :
    ∃ taken, take Error.corrupt length cursor =
      (.ok taken, { cursor with pos := cursor.pos + length }) := by
  refine ⟨slice cursor.bytes cursor.pos length, ?_⟩
  unfold Cursor.take
  rw [if_neg (by omega), slice?_eq_some inside]

theorem pos_le_of_count {bytesPerItem : Nat}
    (ran : count Error.corrupt bytesPerItem cursor = (.ok number, next)) :
    next.pos ≤ next.bytes.length := by
  obtain ⟨declared, middle, ranLength, ran⟩ := bind_eq_ok ran
  obtain ⟨taken, between, ranTake, ranLength⟩ := bind_eq_ok ranLength
  cases ranLength
  obtain ⟨room, rfl⟩ := take_eq_ok ranTake
  obtain ⟨left, counted, ranLeft, ran⟩ := bind_eq_ok ran
  cases ranLeft
  split at ran
  · cases ran
  · cases ran
    exact room

theorem many_lane_eq_ok {dim : Nat} {lanes : List UInt32}
    (inside : cursor.pos ≤ cursor.bytes.length) (ran : many lane dim cursor = (.ok lanes, next)) :
    cursor.pos + dim * 4 ≤ cursor.bytes.length ∧
      next = { cursor with pos := cursor.pos + dim * 4 } := by
  induction dim generalizing cursor lanes with
  | zero =>
    cases ran
    exact ⟨by omega, rfl⟩
  | succ dim ih =>
    obtain ⟨first, middle, ranFirst, ran⟩ := bind_eq_ok ran
    obtain ⟨rest, final, ranRest, ran⟩ := bind_eq_ok ran
    cases ran
    obtain ⟨taken, between, ranTake, ranFirst⟩ := bind_eq_ok ranFirst
    cases ranFirst
    obtain ⟨room, rfl⟩ := take_eq_ok ranTake
    obtain ⟨more, rfl⟩ := ih room ranRest
    refine ⟨by simp only at more; omega, ?_⟩
    congr 1
    simp only
    omega

theorem skipValue_of_decodeValue {value : Value}
    (ran : decodeValue dequantize cursor = (.ok value, next)) :
    skipValue cursor = (.ok (), next) := by
  obtain ⟨tag, tagged, ranTag, ran⟩ := bind_eq_ok ran
  -- The skip of a payload whose length the tag or a prefix tells.
  have skips {length : Nat} {counted : Cursor} (told : payloadLen tag tagged = (.ok length, counted))
      (inside : counted.pos + length ≤ counted.bytes.length)
      (stops : next = { counted with pos := counted.pos + length }) :
      skipValue cursor = (.ok (), next) := by
    obtain ⟨taken, ranTake⟩ := take_of_inside inside
    rw [skipValue, bind_of_ok ranTag, bind_of_ok told, bind_of_ok ranTake, stops]
    rfl
  have within : tagged.pos ≤ tagged.bytes.length := by
    obtain ⟨taken, between, ranTake, ranTag⟩ := bind_eq_ok ranTag
    obtain ⟨room, rfl⟩ := take_eq_ok ranTake
    cases taken with
    | nil => cases ranTag
    | cons byte rest => cases ranTag; exact room
  unfold payloadLen at skips
  split at ran
  · rename_i isNull
    cases ran
    exact skips (by rw [if_pos isNull]; rfl) within rfl
  rename_i notNull
  rw [if_neg notNull] at skips
  split at ran
  · rename_i isInteger
    obtain ⟨taken, between, ranTake, ran⟩ := bind_eq_ok ran
    cases ran
    obtain ⟨room, stops⟩ := take_eq_ok ranTake
    exact skips (by rw [if_pos (.inl isInteger)]; rfl) room stops
  rename_i notInteger
  split at ran
  · rename_i isReal
    obtain ⟨taken, between, ranTake, ran⟩ := bind_eq_ok ran
    cases ran
    obtain ⟨room, stops⟩ := take_eq_ok ranTake
    exact skips (by rw [if_pos (.inr isReal)]; rfl) room stops
  rename_i notReal
  rw [if_neg (not_or.mpr ⟨notInteger, notReal⟩)] at skips
  split at ran
  · rename_i isText
    obtain ⟨length, between, ranLength, ran⟩ := bind_eq_ok ran
    obtain ⟨bytes, final, ranTake, ran⟩ := bind_eq_ok ran
    obtain ⟨room, stops⟩ := take_eq_ok ranTake
    refine skips (by rw [if_pos (.inl isText)]; exact ranLength) room ?_
    cases decoded : fromUtf8 bytes with
    | none => rw [decoded] at ran; cases ran
    | some text => rw [decoded] at ran; cases ran; exact stops
  rename_i notText
  split at ran
  · rename_i isBlob
    obtain ⟨length, between, ranLength, ran⟩ := bind_eq_ok ran
    obtain ⟨bytes, final, ranTake, ran⟩ := bind_eq_ok ran
    cases ran
    obtain ⟨room, stops⟩ := take_eq_ok ranTake
    exact skips (by rw [if_pos (.inr isBlob)]; exact ranLength) room stops
  rename_i notBlob
  rw [if_neg (not_or.mpr ⟨notText, notBlob⟩)] at skips
  split at ran
  · rename_i isVector
    obtain ⟨dim, between, ranDim, ran⟩ := bind_eq_ok ran
    obtain ⟨lanes, final, ranLanes, ran⟩ := bind_eq_ok ran
    cases ran
    have inside := pos_le_of_count ranDim
    obtain ⟨room, stops⟩ := many_lane_eq_ok inside ranLanes
    exact skips (by rw [if_pos isVector, bind_of_ok ranDim]; rfl) room stops
  rename_i notVector
  rw [if_neg notVector] at skips
  split at ran
  · rename_i isQuantized
    obtain ⟨dim, between, ranDim, ran⟩ := bind_eq_ok ran
    obtain ⟨scale, scaled, ranScale, ran⟩ := bind_eq_ok ran
    obtain ⟨codes, final, ranCodes, ran⟩ := bind_eq_ok ran
    cases ran
    obtain ⟨taken, after, ranTake, ranScale⟩ := bind_eq_ok ranScale
    cases ranScale
    obtain ⟨room, rfl⟩ := take_eq_ok ranTake
    obtain ⟨room', stops⟩ := take_eq_ok ranCodes
    refine skips (by rw [if_pos isQuantized, bind_of_ok ranDim]; rfl) ?_ ?_
    · simp only at room'
      omega
    · rw [stops]
      simp only [Nat.add_comm dim 4, Nat.add_assoc]
  · cases ran

/-! ## Masks -/

section Columns

variable (dequantize : UInt8 -> UInt32 -> UInt32)

variable {wants : Nat → Bool} {ordinal : Nat} {cursor next : Cursor} {left : Nat} {row : List Value}

/-- Wherever one mask can read a column, another that wants no more of it can, and both
stop at the same place. -/
theorem column_narrow {fewer : Nat -> Bool} {value : Value}
    (within : fewer ordinal = true -> wants ordinal = true)
    (ran : column (decodeValue dequantize) .null wants ordinal cursor = (.ok value, next)) :
    column (decodeValue dequantize) .null fewer ordinal cursor =
      (.ok (if fewer ordinal then value else .null), next) := by
  unfold column at ran ⊢
  by_cases few : fewer ordinal = true
  · rw [if_pos (within few)] at ran
    rw [if_pos few, if_pos few, ran]
  · rw [if_neg few, if_neg few]
    have skipped : skipValue cursor = (.ok (), next) := by
      by_cases wanted : wants ordinal = true
      · rw [if_pos wanted] at ran
        exact skipValue_of_decodeValue dequantize ran
      · rw [if_neg wanted] at ran
        obtain ⟨_, middle, ranSkip, ran⟩ := bind_eq_ok ran
        cases ran
        exact ranSkip
    rw [bind_of_ok skipped]
    rfl

/-- What a mask makes of the columns from `ordinal` on. -/
def masked (wants : Nat -> Bool) (ordinal : Nat) (row : List Value) : List Value :=
  row.mapIdx fun position value => if wants (ordinal + position) then value else .null

theorem masked_cons (wants : Nat -> Bool) (ordinal : Nat) (value : Value) (row : List Value) :
    masked wants ordinal (value :: row) =
      (if wants ordinal then value else .null) :: masked wants (ordinal + 1) row := by
  simp [masked, mapIdx_cons, Nat.add_assoc, Nat.add_comm 1]

theorem getElem?_masked (wants : Nat -> Bool) (ordinal : Nat) (row : List Value) (position : Nat) :
    (masked wants ordinal row)[position]? =
      row[position]?.map fun value => if wants (ordinal + position) then value else .null :=
  getElem?_mapIdx

theorem columns_narrow (fewer : Nat -> Bool)
    (within : ∀ ordinal, fewer ordinal = true -> wants ordinal = true)
    (ran : columns (decodeValue dequantize) .null wants left ordinal cursor = (.ok row, next)) :
    columns (decodeValue dequantize) .null fewer left ordinal cursor =
      (.ok (masked fewer ordinal row), next) := by
  induction left generalizing ordinal cursor row with
  | zero => cases ran; rfl
  | succ left ih =>
    obtain ⟨first, middle, ranFirst, ran⟩ := bind_eq_ok ran
    obtain ⟨rest, final, ranRest, ran⟩ := bind_eq_ok ran
    cases ran
    rw [columns_succ, bind_of_ok (column_narrow dequantize (within ordinal) ranFirst),
      bind_of_ok (ih ranRest), masked_cons]
    rfl

theorem columns_both {others : Nat -> Bool} {final : Cursor} {other : List Value}
    (ran : columns (decodeValue dequantize) .null wants left ordinal cursor = (.ok row, next))
    (ran' : columns (decodeValue dequantize) .null others left ordinal cursor = (.ok other, final))
    (position : Nat) (wanted : wants (ordinal + position) = true)
    (alsoWanted : others (ordinal + position) = true) : row[position]? = other[position]? := by
  let both (ordinal : Nat) : Bool := wants ordinal && others ordinal
  have narrowed := columns_narrow dequantize both (fun ordinal and => (Bool.and_eq_true_iff.mp and).1) ran
  have narrowed' := columns_narrow dequantize both (fun ordinal and => (Bool.and_eq_true_iff.mp and).2)
    ran'
  have same : masked both ordinal row = masked both ordinal other :=
    Except.ok.inj (congrArg Prod.fst (narrowed.symm.trans narrowed'))
  have here := congrArg (·[position]?) same
  simpa [masked, both, wanted, alsoWanted] using here

section

variable (ran : columns (decodeValue dequantize) .null wants left ordinal cursor = (.ok row, next))

include ran

theorem columns_unwanted : masked wants ordinal row = row := by
  have narrowed := columns_narrow dequantize wants (fun _ => id) ran
  rw [ran] at narrowed
  exact (Except.ok.inj (congrArg Prod.fst narrowed)).symm

theorem skipValues_of_columns : skipValues left cursor = (.ok (), next) := by
  have narrowed := columns_narrow dequantize (fun _ => false) (by simp) ran
  clear ran
  generalize masked (fun _ => false) ordinal row = cells at narrowed
  induction left generalizing ordinal cursor cells with
  | zero => cases narrowed; rfl
  | succ left ih =>
    obtain ⟨first, middle, ranFirst, narrowed⟩ := bind_eq_ok narrowed
    obtain ⟨rest, final, ranRest, narrowed⟩ := bind_eq_ok narrowed
    cases narrowed
    rw [column, if_neg (by simp)] at ranFirst
    obtain ⟨_, between, ranSkip, ranFirst⟩ := bind_eq_ok ranFirst
    cases ranFirst
    rw [skipValues, bind_of_ok ranSkip]
    exact ih _ ranRest

end

theorem decode_of_columns {position : Nat} {value : Value}
    (ran : columns (decodeValue dequantize) .null wants left 0 cursor = (.ok row, next))
    (found : row[position]? = some value) (wanted : wants position = true) :
    ((do skipValues position; decodeValue dequantize : Reader Error Value) cursor).1 =
      .ok value := by
  have inside : position < left := by
    rw [<- length_columns ran]
    exact (List.getElem?_eq_some_iff.mp found).1
  obtain ⟨rest, rfl⟩ : ∃ rest, left = position + (rest + 1) := ⟨left - position - 1, by omega⟩
  rw [columns_add] at ran
  obtain ⟨front, middle, ranFront, ran⟩ := bind_eq_ok ran
  obtain ⟨back, final, ranBack, ran⟩ := bind_eq_ok ran
  cases ran
  obtain ⟨first, between, ranFirst, ranBack⟩ := bind_eq_ok ranBack
  obtain ⟨others, last, ranOthers, ranBack⟩ := bind_eq_ok ranBack
  cases ranBack
  rw [column, if_pos (by rwa [Nat.zero_add])] at ranFirst
  rw [getElem?_append_right (length_columns ranFront).le, length_columns ranFront, Nat.sub_self]
    at found
  cases found
  rw [bind_of_ok (skipValues_of_columns dequantize ranFront), ranFirst]

end Columns

namespace ColumnMask

variable {wanted : List Bool}

theorem lastWanted_none (none : lastWanted wanted = Option.none) (index : Nat) :
    wanted.getD index false = false := by
  induction wanted generalizing index with
  | nil => rfl
  | cons first rest ih =>
    rw [lastWanted] at none
    cases last : lastWanted rest with
    | some position => rw [last] at none; cases none
    | none =>
      rw [last] at none
      cases index with
      | zero =>
        cases first with
        | true => cases none
        | false => rfl
      | succ index => exact ih last index

theorem lastWanted_some {last : Nat} (some' : lastWanted wanted = some last) {index : Nat}
    (past : last < index) : wanted.getD index false = false := by
  induction wanted generalizing last index with
  | nil => cases some'
  | cons first rest ih =>
    obtain ⟨index, rfl⟩ : ∃ before, index = before + 1 := ⟨index - 1, by omega⟩
    rw [lastWanted] at some'
    rw [getD_cons_succ]
    cases later : lastWanted rest with
    | some position =>
      rw [later] at some'
      cases some'
      exact ih later (by omega)
    | none => exact lastWanted_none later index

theorem wants_of_walkLen_le {mask : ColumnMask} {count ordinal : Nat}
    (past : mask.walkLen count ≤ ordinal) (inside : ordinal < count) : mask.wants ordinal = false := by
  unfold walkLen at past
  split at past
  · omega
  · rename_i narrows
    rw [Bool.or_eq_true, decide_eq_true_eq, not_or] at narrows
    rw [wants, if_neg (by
      rw [Bool.or_eq_true, decide_eq_true_eq]
      exact not_or.mpr ⟨narrows.1, by omega⟩)]
    cases last : lastWanted mask.spilled with
    | some position =>
      rw [last] at past
      dsimp only at past
      rw [if_pos (by omega)]
      exact lastWanted_some last (by omega)
    | none =>
      rw [last] at past
      dsimp only at past
      split
      · exact lastWanted_none last _
      · refine Nat.testBit_eq_false_of_lt ((Nat.lt_size_self _).trans_le ?_)
        exact Nat.pow_le_pow_right (by decide) (by omega)

theorem walkLen_le (mask : ColumnMask) (count : Nat) : mask.walkLen count ≤ count := by
  unfold walkLen
  split
  · exact le_rfl
  · cases lastWanted mask.spilled <;> exact Nat.min_le_right _ _

end ColumnMask

/-! ## Staying inside -/

section Inside

variable (dequantize : UInt8 -> UInt32 -> UInt32)

theorem confined_lane : Confined lane := (Confined.take Error.corrupt 4).bind fun _ => .pure _

theorem confined_refuse {α : Type} (message : String) :
    Confined (Cursor.refuse message : Reader Error α) := .raise _

theorem confined_decodeValueRef : Confined (decodeValueRef dequantize) := by
  refine Confined.u8.bind fun tag => ?_
  split
  · exact .pure _
  split
  · exact (Confined.take Error.corrupt 8).bind fun _ => .pure _
  split
  · exact (Confined.take Error.corrupt 8).bind fun _ => .pure _
  split
  · refine Confined.u32.bind fun length => (Confined.take Error.corrupt length).bind fun bytes => ?_
    cases fromUtf8 bytes with
    | none => exact confined_refuse _
    | some text => exact .pure _
  split
  · exact Confined.u32.bind fun length => (Confined.take Error.corrupt length).bind fun _ => .pure _
  split
  · exact (Confined.count 4).bind fun dim => (Confined.many confined_lane dim).bind fun _ => .pure _
  split
  · exact (Confined.count 1).bind fun dim => confined_lane.bind fun _ =>
      (Confined.take Error.corrupt dim).bind fun _ => .pure _
  · exact confined_refuse _

theorem confined_decodeValue : Confined (decodeValue dequantize) := by
  rw [decodeValue_eq]
  exact (confined_decodeValueRef dequantize).bind fun _ => .pure _

theorem confined_skipValue : Confined skipValue := by
  refine Confined.u8.bind fun tag => ?_
  have length : Confined (payloadLen tag) := by
    unfold payloadLen
    split
    · exact .pure _
    split
    · exact .pure _
    split
    · exact Confined.u32
    split
    · exact (Confined.count 4).bind fun _ => .pure _
    split
    · exact (Confined.count 1).bind fun _ => .pure _
    · exact confined_refuse _
  exact length.bind fun length => (Confined.take Error.corrupt length).bind fun _ => .pure _

theorem confined_columns {α : Type} {decode : Reader Error α} (confined : Confined decode) (null : α)
    (wants : Nat → Bool) (left ordinal : Nat) : Confined (columns decode null wants left ordinal) := by
  induction left generalizing ordinal with
  | zero => exact .pure _
  | succ left ih =>
    have one : Confined (column decode null wants ordinal) := by
      unfold column
      split
      · exact confined
      · exact confined_skipValue.bind fun _ => .pure _
    exact one.bind fun _ => (ih (ordinal + 1)).bind fun _ => .pure _

theorem confined_skipValues (left : Nat) : Confined (skipValues left) := by
  induction left with
  | zero => exact .pure _
  | succ left ih => exact confined_skipValue.bind fun _ => ih

theorem inside_new (bytes : Bytes) : Inside (Cursor.new bytes) := ⟨Nat.zero_le _, nofun⟩

end Inside

/-! ## The codec -/

/-- The decoders of a row agree on a byte string. -/
structure DecodersAgree (dequantize : UInt8 -> UInt32 -> UInt32) (bytes : Bytes) : Prop where
  /-- A masked decoder accepts what the full one accepts, with `NULL` for each column it
  does not want. -/
  masked : ∀ mask row, decodeRow dequantize bytes = .ok row ->
    decodeRowMasked dequantize bytes mask = .ok (masked mask.wants 0 row)
  /-- Two masked decoders that accept agree on every column both want. -/
  masks : ∀ mask other row cells, decodeRowMasked dequantize bytes mask = .ok row ->
    decodeRowMasked dequantize bytes other = .ok cells -> row.length = cells.length ∧
      ∀ ordinal, mask.wants ordinal = true -> other.wants ordinal = true ->
        row[ordinal]? = cells[ordinal]?
  /-- What is not wanted is `NULL`. -/
  unwanted : ∀ mask row, decodeRowMasked dequantize bytes mask = .ok row ->
    row = RowCodec.masked mask.wants 0 row
  /-- Appending gives what was there and the cells, however far it gets. -/
  appended : ∀ mask out, decodeRowMaskedOnto dequantize bytes mask out =
    ((decodeRowMaskedOnto dequantize bytes mask []).1,
      out ++ (decodeRowMaskedOnto dequantize bytes mask []).2)
  /-- The borrowed decoder accepts the same strings and refuses with the same errors. -/
  borrowed : ∀ mask, decodeRowMasked dequantize bytes mask =
    (decodeRowRefMasked dequantize bytes mask).map (List.map ValueRef.toOwnedValue)
  borrowedOnto : ∀ mask out, decodeRowRefMaskedOnto dequantize bytes mask out =
    ((decodeRowRefMaskedInto dequantize bytes mask out).1,
      out ++ (decodeRowRefMaskedInto dequantize bytes mask out).2)
  /-- The decoder that stops early accepts what the one that does not accepts. -/
  stopsEarly : ∀ mask out cells, decodeRowRefMasked dequantize bytes mask = .ok cells ->
    (decodeRowRefWantedInto dequantize bytes mask out).returned = .ok cells
  /-- Where it accepts more, what it gives for a wanted column is still that column. -/
  early : ∀ mask out cells, (decodeRowRefWantedInto dequantize bytes mask out).returned = .ok cells →
    ∀ (ordinal : Nat) cell, cells[ordinal]? = some cell ->
      if mask.wants ordinal then decodeValueAt dequantize bytes ordinal = .ok cell.toOwnedValue
      else cell = .null
  /-- One column alone is that column of any row read with it. -/
  single : ∀ mask row, decodeRowMasked dequantize bytes mask = .ok row ->
    ∀ (ordinal : Nat) value, row[ordinal]? = some value -> mask.wants ordinal = true ->
      decodeValueAt dequantize bytes ordinal = .ok value
  /-- A column past the end is refused. -/
  past : ∀ mask row, decodeRowMasked dequantize bytes mask = .ok row -> ∀ ordinal ≥ row.length,
    decodeValueAt dequantize bytes ordinal =
      .error (.raised (.corrupt "column ordinal past the end of the row"))
  /-- None of them reads outside the string. -/
  inside : ∀ mask, decodeRowMasked dequantize bytes mask ≠ .error .outOfBounds ∧
    decodeRowRefMasked dequantize bytes mask ≠ .error .outOfBounds ∧
    (∀ out, (decodeRowRefWantedInto dequantize bytes mask out).returned ≠ .error .outOfBounds) ∧
    ∀ ordinal, decodeValueAt dequantize bytes ordinal ≠ .error .outOfBounds

theorem decodeRowMasked_eq : decodeRowMasked dequantize bytes mask =
      ((count Error.corrupt 1 >>= fun count =>
        columns (decodeValue dequantize) .null mask.wants count 0) (Cursor.new bytes)).1 :=
  fillRow_returned mask bytes

section

variable {dequantize : UInt8 -> UInt32 -> UInt32} {bytes : Bytes} {mask : ColumnMask} {row : Row}

theorem decodeRowMasked_eq_ok (decoded : decodeRowMasked dequantize bytes mask = .ok row) :
    ∃ cursor next, count Error.corrupt 1 (Cursor.new bytes) = (.ok row.length, cursor) ∧
      columns (decodeValue dequantize) .null mask.wants row.length 0 cursor = (.ok row, next) := by
  rw [decodeRowMasked_eq] at decoded
  obtain ⟨number, cursor, ranCount, ran⟩ := bind_eq_ok (Prod.ext decoded rfl)
  obtain rfl := length_columns ran
  exact ⟨cursor, _, ranCount, ran⟩

theorem decodeRowMasked_of_columns
    (ranCount : count Error.corrupt 1 (Cursor.new bytes) = (.ok number, cursor))
    (ran : columns (decodeValue dequantize) .null mask.wants number 0 cursor = (.ok row, next)) :
    decodeRowMasked dequantize bytes mask = .ok row := by
  rw [decodeRowMasked_eq, bind_of_ok ranCount, ran]

end

theorem decodeRowRefMasked_eq : decodeRowRefMasked dequantize bytes mask =
      ((count Error.corrupt 1 >>= fun count =>
        columns (decodeValueRef dequantize) .null mask.wants count 0) (Cursor.new bytes)).1 :=
  fillRow_returned mask bytes

theorem decodeRowMasked_eq_ref : decodeRowMasked dequantize bytes mask =
      (decodeRowRefMasked dequantize bytes mask).map (List.map ValueRef.toOwnedValue) := by
  rw [decodeRowMasked_eq, decodeRowRefMasked_eq, bind_apply, bind_apply]
  cases count Error.corrupt 1 (Cursor.new bytes) with
  | mk answer next =>
    cases answer with
    | error fault => rfl
    | ok number =>
      dsimp only
      refine (congrArg Prod.fst (congrFun (columns_ref dequantize mask.wants number 0) next)).trans ?_
      rw [bind_apply]
      cases columns (decodeValueRef dequantize) .null mask.wants number 0 next with
      | mk answer later => cases answer <;> rfl

theorem decodeRowRefWantedInto_returned (out : List ValueRef) :
    (decodeRowRefWantedInto dequantize bytes mask out).returned =
      ((count Error.corrupt 1 >>= fun number => do
        let front <- columns (decodeValueRef dequantize) .null mask.wants (mask.walkLen number) 0
        return front ++ List.replicate (number - mask.walkLen number) .null)
          (Cursor.new bytes)).1 := by
  unfold decodeRowRefWantedInto
  rw [bind_apply]
  cases count Error.corrupt 1 (Cursor.new bytes) with
  | mk answer next =>
    cases answer with
    | error fault => rfl
    | ok number =>
      dsimp only
      rw [bind_apply]
      have filled : (fill (decodeValueRef dequantize) .null mask.wants (mask.walkLen number) 0 []
          next).returned = (columns (decodeValueRef dequantize) .null mask.wants
            (mask.walkLen number) 0 next).1 :=
        fill_returned (mask.walkLen number) 0 next
      revert filled
      cases columns (decodeValueRef dequantize) .null mask.wants (mask.walkLen number) 0 next with
      | mk answer later =>
        cases fill (decodeValueRef dequantize) .null mask.wants (mask.walkLen number) 0 [] next with
        | mk ended cells =>
          intro filled
          cases ended with
          | error fault => cases filled; rfl
          | ok _ => cases filled; rfl

theorem decodeValueAt_eq {bytes : Bytes}
    (ranCount : count Error.corrupt 1 (Cursor.new bytes) = (.ok number, cursor)) {ordinal : Nat}
    (inside : ordinal < number) :
    decodeValueAt dequantize bytes ordinal =
      ((do skipValues ordinal; decodeValue dequantize : Reader Error Value) cursor).1 := by
  rw [decodeValueAt, readValueAt, bind_of_ok ranCount, if_neg (Nat.not_le.mpr inside)]

theorem decodersAgree : DecodersAgree dequantize bytes := by
  constructor
  · intro mask row decoded
    obtain ⟨cursor, next, ranCount, ran⟩ := decodeRowMasked_eq_ok decoded
    exact decodeRowMasked_of_columns ranCount
      (columns_narrow dequantize mask.wants (fun _ _ => rfl) ran)
  · intro mask other row cells decoded decoded'
    obtain ⟨cursor, next, ranCount, ran⟩ := decodeRowMasked_eq_ok decoded
    obtain ⟨cursor', next', ranCount', ran'⟩ := decodeRowMasked_eq_ok decoded'
    rw [ranCount] at ranCount'
    obtain ⟨same, rfl⟩ := Prod.mk.inj ranCount'
    have lengths := Except.ok.inj same
    rw [<- lengths] at ran'
    refine ⟨lengths, fun ordinal wanted alsoWanted => ?_⟩
    exact columns_both dequantize ran ran' ordinal (by rwa [Nat.zero_add]) (by rwa [Nat.zero_add])
  · intro mask row decoded
    obtain ⟨cursor, next, ranCount, ran⟩ := decodeRowMasked_eq_ok decoded
    exact (columns_unwanted dequantize ran).symm
  · exact fun mask out => fillRow_append mask bytes out
  · exact decodeRowMasked_eq_ref dequantize bytes
  · exact fun mask out => fillRow_append mask bytes out
  · intro mask out cells decoded
    rw [decodeRowRefMasked_eq] at decoded
    obtain ⟨number, cursor, ranCount, ran⟩ := bind_eq_ok (Prod.ext decoded rfl)
    obtain ⟨rest, split⟩ : ∃ rest, number = mask.walkLen number + rest :=
      ⟨_, (Nat.add_sub_of_le (mask.walkLen_le number)).symm⟩
    rw [split, columns_add] at ran
    obtain ⟨front, middle, ranFront, ran⟩ := bind_eq_ok ran
    obtain ⟨back, final, ranBack, ran⟩ := bind_eq_ok ran
    rw [decodeRowRefWantedInto_returned, bind_of_ok ranCount, bind_of_ok ranFront]
    have unwanted : ∀ position < rest, mask.wants (0 + mask.walkLen number + position) = false :=
      fun position inside => by
        have past : mask.walkLen number ≤ 0 + mask.walkLen number + position := by omega
        exact ColumnMask.wants_of_walkLen_le past (by omega)
    have nulls := columns_nulls unwanted ranBack
    rw [show number - mask.walkLen number = rest by omega, <- nulls]
    exact congrArg Prod.fst ran
  · intro mask out cells decoded ordinal cell found
    rw [decodeRowRefWantedInto_returned] at decoded
    obtain ⟨number, cursor, ranCount, ran⟩ := bind_eq_ok (Prod.ext decoded rfl)
    obtain ⟨front, middle, ranFront, ran⟩ := bind_eq_ok ran
    cases ran
    have walked := length_columns ranFront
    have owned := columns_ref_eq_ok dequantize ranFront
    have fits := mask.walkLen_le number
    by_cases inside : ordinal < mask.walkLen number
    · rw [getElem?_append_left (by omega)] at found
      have ownedFound : (front.map ValueRef.toOwnedValue)[ordinal]? = some cell.toOwnedValue := by
        rw [getElem?_map, found, Option.map_some]
      split
      · rename_i wanted
        rw [decodeValueAt_eq dequantize ranCount (by omega)]
        exact decode_of_columns dequantize owned ownedFound wanted
      · rename_i unwanted
        have isNull : cell.toOwnedValue = .null := by
          have same := getElem?_masked mask.wants 0 (front.map ValueRef.toOwnedValue) ordinal
          rw [columns_unwanted dequantize owned, ownedFound, Option.map_some, Nat.zero_add,
            if_neg unwanted] at same
          exact Option.some.inj same
        cases cell <;> first | rfl | cases isNull
    · have short : ordinal < number := by
        have := (List.getElem?_eq_some_iff.mp found).1
        rw [length_append, length_replicate] at this
        omega
      rw [ColumnMask.wants_of_walkLen_le (Nat.le_of_not_lt inside) short, if_neg Bool.false_ne_true]
      rw [getElem?_append_right (by omega)] at found
      exact eq_of_mem_replicate (mem_of_getElem? found)
  · intro mask row decoded ordinal value found wanted
    obtain ⟨cursor, next, ranCount, ran⟩ := decodeRowMasked_eq_ok decoded
    rw [decodeValueAt_eq dequantize ranCount (List.getElem?_eq_some_iff.mp found).1]
    exact decode_of_columns dequantize ran found wanted
  · intro mask row decoded ordinal past
    obtain ⟨cursor, next, ranCount, ran⟩ := decodeRowMasked_eq_ok decoded
    rw [decodeValueAt, readValueAt, bind_of_ok ranCount, if_pos past]
    rfl
  · intro mask
    have counted : Confined (count Error.corrupt 1) := Confined.count 1
    refine ⟨?_, ?_, fun out => ?_, fun ordinal => ?_⟩
    · rw [decodeRowMasked_eq]
      exact (counted.bind fun number => confined_columns (confined_decodeValue dequantize) _ _ number 0)
        _ (inside_new bytes) |>.1
    · rw [decodeRowRefMasked_eq]
      exact (counted.bind fun number => confined_columns (confined_decodeValueRef dequantize) _ _
        number 0) _ (inside_new bytes) |>.1
    · rw [decodeRowRefWantedInto_returned]
      exact (counted.bind fun number => (confined_columns (confined_decodeValueRef dequantize) _ _
        (mask.walkLen number) 0).bind fun _ => .pure _) _ (inside_new bytes) |>.1
    · refine (counted.bind fun number => ?_) _ (inside_new bytes) |>.1
      split
      · exact confined_refuse _
      · exact (confined_skipValues ordinal).bind fun _ => confined_decodeValue dequantize

/-- A row is read back exactly when it has as many values as a `u32` counts and each of them
is as long; and whatever the bytes and the mask, the decoders agree. -/
theorem rowCodec (dequantize : UInt8 -> UInt32 -> UInt32) :
    (∀ row, decodeRow dequantize (encodeRow row) = .ok row ↔ SmallRow row) ∧
      ∀ bytes, DecodersAgree dequantize bytes :=
  ⟨fun _ => ⟨smallRow_of_decodeRow dequantize, decodeRow_encodeRow dequantize⟩,
    decodersAgree dequantize⟩

/-- A blob of `2³²` bytes is written with a length of zero. -/
theorem decodeRow_long :
    decodeRow (fun _ scale => scale) (encodeRow [.blob (List.replicate (2 ^ 32) 0)]) ≠
      .ok [.blob (List.replicate (2 ^ 32) 0)] := by
  intro decoded
  have small := (smallRow_of_decodeRow _ decoded).values _ (mem_singleton.mpr rfl)
  rw [Small, length_replicate] at small
  exact absurd small (lt_irrefl _)

end InlaySql.Sql.RowCodec
