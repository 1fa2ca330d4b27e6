import InlaySql.Btree.RangeWalk

/-!
# Reading a page without reading past it

The parsers again, with every index the source writes checked as the language checks it:
an index outside its slice is not a refusal but an error of its own. No page reaches one,
whatever its bytes, and the decoder and the scan in place read the same cells.
-/

namespace InlaySql.Btree

open List Lib

/-- How a read of a page ends when it has no answer. -/
inductive Halt where
  | refused (error : Error)
  /-- An index outside its slice, which stops the program. -/
  | outOfBounds
  deriving DecidableEq, Repr

/-- A read of a page. -/
abbrev Reading := Except Halt

/-- An answer or a refusal, as a read. -/
def refuse {α : Type} : Except Error α -> Reading α
  | .ok value => .ok value
  | .error error => .error (.refused error)

variable {α : Type}

@[simp] theorem refuse_ok (value : α) : refuse (.ok value) = .ok value := rfl

theorem refuse_bind {β : Type} (first : Except Error α) (next : α -> Except Error β) :
    refuse (first >>= next) = refuse first >>= fun value => refuse (next value) := by
  cases first <;> rfl

theorem refuse_mapM {β : Type} (read : α -> Except Error β) (items : List α) :
    refuse (items.mapM read) = items.mapM fun item => refuse (read item) := by
  induction items with
  | nil => rfl
  | cons item items ih =>
    rw [mapM_cons, mapM_cons, refuse_bind, <- ih]
    refine bind_congr fun value => ?_
    rw [refuse_bind]
    rfl

theorem refuse_ne_outOfBounds (answer : Except Error α) : refuse answer ≠ .error .outOfBounds := by
  cases answer with
  | ok value => exact fun same => by cases same
  | error error => exact fun same => by cases same

namespace Raw

/-! ## Indexing -/

/-- `bytes[index]`. -/
def byteAt (bytes : Bytes) (index : Nat) : Reading UInt8 :=
  match bytes[index]? with
  | some byte => .ok byte
  | none => .error .outOfBounds

/-- `&bytes[range]`. -/
def bytesIn (bytes : Bytes) (range : ByteRange) : Reading Bytes :=
  if range.start ≤ range.stop ∧ range.stop ≤ bytes.length then .ok (range.of bytes)
  else .error .outOfBounds

/-- `from_le_bytes` of the first `width` bytes, each of them indexed. -/
def number (bytes : Bytes) : Nat -> Reading Nat
  | 0 => .ok 0
  | width + 1 => do
      let low <- number bytes width
      let byte <- byteAt bytes width
      return low + 256 ^ width * byte.toNat

/-- `bytes.get(start..start + length)`, or the error a missing range is. -/
def get (bytes : Bytes) (start length : Nat) (error : Error) : Reading Bytes :=
  match slice? bytes start length with
  | some field => .ok field
  | none => .error (.refused error)

/-! ## The parsers -/

def getU16 (bytes : Bytes) (offset : Nat) : Reading Nat := do
  let field <- get bytes offset 2 (.corrupt "short read for u16")
  number field 2

def getU64 (bytes : Bytes) (offset : Nat) : Reading Nat := do
  let field <- get bytes offset 8 (.corrupt "short read for u64")
  number field 8

/-- The value of a leaf cell whose key ends at `keyEnd`. -/
def parseValue (bytes : Bytes) (keyEnd : Nat) (tag : UInt8) : Reading ValueRef :=
  if tag = valueInline then do
    let field <- get bytes (keyEnd + 1) 4 (.corrupt "leaf value length runs past end of page")
    let valueLen <- number field 4
    let valueEnd := keyEnd + 5 + valueLen
    if valueEnd > bytes.length then
      throw (.refused (.corrupt "leaf value runs past end of page"))
    else return .inline ⟨keyEnd + 5, valueEnd⟩
  else if tag = valueOverflow then do
    let pointer <- get bytes (keyEnd + 1) 16 (.corrupt "overflow pointer runs past end of page")
    let firstField <- bytesIn pointer ⟨0, 8⟩
    let first <- number firstField 8
    let lenField <- bytesIn pointer ⟨8, pointer.length⟩
    let len <- number lenField 8
    return .overflow first len
  else throw (.refused (.corrupt s!"unknown leaf value tag {tag}"))

def parseLeafCell (bytes : Bytes) (slot : Nat) : Reading (ByteRange × ValueRef) := do
  let head <- get bytes slot 2 (.corrupt "leaf cell runs past end of page")
  let keyLen <- number head 2
  let keyStart := slot + 2
  let keyEnd := keyStart + keyLen
  match bytes[keyEnd]? with
  | none => throw (.refused (.corrupt "leaf key runs past end of page"))
  | some tag => do
      let value <- parseValue bytes keyEnd tag
      return (⟨keyStart, keyEnd⟩, value)

def decodeLeafCell (bytes : Bytes) (slot : Nat) : Reading Entry := do
  let (key, value) <- parseLeafCell bytes slot
  return { key := .borrowed key, value }

def decodeInternalCell (bytes : Bytes) (pageSize slot : Nat) : Reading Separator :=
  if slot + 2 > pageSize then
    throw (.refused (.corrupt "internal cell runs past end of page"))
  else do
    let keyLen <- getU16 bytes slot
    let keyEnd := slot + 2 + keyLen
    if keyEnd + 8 > pageSize then
      throw (.refused (.corrupt "internal key runs past end of page"))
    else do
      let child <- getU64 bytes keyEnd
      return { key := .borrowed ⟨slot + 2, keyEnd⟩, child }

/-- The cells of a page, once its header has been read. -/
def decodeCells (pageSize : Nat) (bytes : Bytes) (kind : UInt8) (leftmost : Nat)
    (slots : List Nat) : Reading Node :=
  if kind = kindLeaf then do
    let entries <- slots.mapM (decodeLeafCell bytes)
    return .leaf bytes entries
  else if kind = kindInternal then do
    let cells <- slots.mapM (decodeInternalCell bytes pageSize)
    return .internal bytes leftmost cells
  else throw (.refused (.corrupt s!"unknown node kind {kind}"))

/-- `decode_with`. -/
def decode (pageSize : Nat) (bytes : Bytes) : Reading Node :=
  let length := bytes.length
  if length ≠ pageSize then
    throw (.refused (.corrupt s!"page is {length} bytes, expected {pageSize}"))
  else do
    let kind <- byteAt bytes offKind
    let count <- getU16 bytes offCellCount
    let freeStart <- getU16 bytes offFreeStart
    let leftmost <- getU64 bytes offLeftmost
    if freeStart > pageSize then
      throw (.refused (.corrupt "free start past end of page"))
    else if headerSize + slotSize * count > freeStart then
      throw (.refused (.corrupt "slot directory overlaps cell area"))
    else do
      let slots <- (List.range count).mapM fun i => getU16 bytes (headerSize + slotSize * i)
      decodeCells pageSize bytes kind leftmost slots

def checkLeafHeader (bytes : Bytes) (pageSize : Nat) : Reading Nat :=
  let length := bytes.length
  if length ≠ pageSize then
    throw (.refused (.corrupt s!"page is {length} bytes, expected {pageSize}"))
  else do
    let count <- getU16 bytes offCellCount
    let freeStart <- getU16 bytes offFreeStart
    if freeStart > pageSize then
      throw (.refused (.corrupt "free start past end of page"))
    else if headerSize + slotSize * count > freeStart then
      throw (.refused (.corrupt "slot directory overlaps cell area"))
    else return count

def leafCellCount (bytes : Bytes) (pageSize : Nat) : Reading Nat := checkLeafHeader bytes pageSize

def leafKeyAt (bytes : Bytes) (at_ : Nat) : Reading Bytes := do
  let slot <- getU16 bytes at_
  let head <- get bytes slot 2 (.corrupt "leaf cell runs past end of page")
  let keyLen <- number head 2
  get bytes (slot + 2) keyLen (.corrupt "leaf key runs past end of page")

def leafEdgeKeys (bytes : Bytes) (pageSize : Nat) : Reading (Option (Bytes × Bytes)) := do
  let count <- checkLeafHeader bytes pageSize
  if count = 0 then return none
  else do
    let first <- leafKeyAt bytes headerSize
    let last <- leafKeyAt bytes (headerSize + slotSize * (count - 1))
    return some (first, last)

/-- `as_chunks::<SLOT_SIZE>`: the slot directory two bytes at a time. -/
def chunks : Bytes -> List Bytes
  | low :: high :: rest => [low, high] :: chunks rest
  | _ => []

def scanLeafCells {Out : Type} (bytes : Bytes) (pageSize : Nat)
    (f : Bytes -> ValueRef -> Out -> Reading Out) (out : Out) : Reading Out := do
  let count <- checkLeafHeader bytes pageSize
  let slots <- bytesIn bytes ⟨headerSize, headerSize + slotSize * count⟩
  (chunks slots).foldlM (fun out slot => do
    let slot <- number slot 2
    let (key, value) <- parseLeafCell bytes slot
    let key <- bytesIn bytes key
    f key value out) out

def decodeLeafCellRef (bytes : Bytes) (slot : Nat) : Reading (Bytes × ValueRef) := do
  let (key, value) <- parseLeafCell bytes slot
  let key <- bytesIn bytes key
  return (key, value)

/-! ## The parsers stay inside the page -/

theorem byteAt_eq {bytes : Bytes} {index : Nat} (inside : index < bytes.length) :
    byteAt bytes index = .ok bytes[index] := by
  rw [byteAt, getElem?_eq_getElem inside]

theorem bytesIn_eq {bytes : Bytes} {range : ByteRange} (ordered : range.start ≤ range.stop)
    (inside : range.stop ≤ bytes.length) : bytesIn bytes range = .ok (range.of bytes) :=
  if_pos ⟨ordered, inside⟩

theorem ofLe_append (front back : Bytes) :
    ofLe (front ++ back) = ofLe front + 256 ^ front.length * ofLe back := by
  induction front with
  | nil => simp [ofLe]
  | cons byte front ih =>
    simp only [cons_append, ofLe, ih, length_cons, Nat.pow_succ]
    ring

theorem number_append (front back : Bytes) :
    number (front ++ back) front.length = .ok (ofLe front) := by
  induction front using List.reverseRecOn generalizing back with
  | nil => rfl
  | append_singleton front byte ih =>
    have here : (front ++ [byte] ++ back)[front.length]? = some byte := by simp
    have before := ih ([byte] ++ back)
    rw [<- append_assoc] at before
    rw [length_append, length_singleton, number, before, ok_bind, byteAt, here, ok_bind,
      ofLe_append]
    rfl

theorem number_eq {field : Bytes} {width : Nat} (length : field.length = width) :
    number field width = .ok (ofLe field) := by
  subst length
  simpa using number_append field []

theorem slice?_length {bytes field : Bytes} {start length : Nat}
    (found : slice? bytes start length = some field) : field.length = length := by
  unfold slice? at found
  split at found
  · cases found
    exact length_slice (by assumption)
  · cases found

variable (bytes : Bytes)

theorem get_number (start length : Nat) (error : Error) : (do
      let field <- get bytes start length error
      number field length) = refuse (match slice? bytes start length with
        | some field => .ok (ofLe field)
        | none => .error error) := by
  unfold get
  cases found : slice? bytes start length with
  | none => rfl
  | some field => exact number_eq (slice?_length found)

theorem getU16_eq (offset : Nat) : getU16 bytes offset = refuse (Btree.getU16 bytes offset) :=
  get_number bytes offset 2 _

theorem getU64_eq (offset : Nat) : getU64 bytes offset = refuse (Btree.getU64 bytes offset) :=
  get_number bytes offset 8 _

theorem parseLeafCell_eq (slot : Nat) :
    parseLeafCell bytes slot = refuse (Btree.parseLeafCell bytes slot) := by
  unfold parseLeafCell Btree.parseLeafCell get
  cases isHead : slice? bytes slot 2 with
  | none => rfl
  | some head =>
    simp only [ok_bind, number_eq (slice?_length isHead)]
    cases bytes[slot + 2 + ofLe head]? with
    | none => rfl
    | some tag =>
      simp only [parseValue, get]
      split
      · cases isField : slice? bytes (slot + 2 + ofLe head + 1) 4 with
        | none => rfl
        | some field =>
          simp only [ok_bind, number_eq (slice?_length isField)]
          split
          · rfl
          · rfl
      · split
        · cases isPointer : slice? bytes (slot + 2 + ofLe head + 1) 16 with
          | none => rfl
          | some pointer =>
            have wide := slice?_length isPointer
            have front : bytesIn pointer ⟨0, 8⟩ = .ok ((ByteRange.mk 0 8).of pointer) :=
              bytesIn_eq (by simp) (by simp [wide])
            have back : bytesIn pointer ⟨8, pointer.length⟩ =
                .ok ((ByteRange.mk 8 pointer.length).of pointer) :=
              bytesIn_eq (by simp [wide]) (by simp)
            have frontIs : (ByteRange.mk 0 8).of pointer = pointer.take 8 := rfl
            have backIs : (ByteRange.mk 8 pointer.length).of pointer = pointer.drop 8 := by
              simp only [ByteRange.of, ByteRange.len, slice]
              exact take_of_length_le (by simp)
            simp only [ok_bind, front, back, frontIs, backIs]
            rw [number_eq (show (pointer.take 8).length = 8 by simp [wide]),
              number_eq (show (pointer.drop 8).length = 8 by simp [wide])]
            rfl
        · rfl

theorem decodeLeafCell_eq (slot : Nat) :
    decodeLeafCell bytes slot = refuse (Btree.decodeLeafCell bytes slot) := by
  rw [decodeLeafCell, parseLeafCell_eq, Btree.decodeLeafCell, refuse_bind]
  rfl

theorem decodeInternalCell_eq (pageSize slot : Nat) : decodeInternalCell bytes pageSize slot =
      refuse (Btree.decodeInternalCell bytes pageSize slot) := by
  unfold decodeInternalCell Btree.decodeInternalCell
  split
  · rfl
  · simp only [getU16_eq, getU64_eq, refuse_bind]
    refine bind_congr fun keyLen => ?_
    split
    · rfl
    · simp only [refuse_bind]
      rfl

section Header

variable {pageSize : Nat} {bytes : Bytes}

theorem checkLeafHeader_eq (bytes : Bytes) (pageSize : Nat) :
    checkLeafHeader bytes pageSize = refuse (Btree.checkLeafHeader bytes pageSize) := by
  unfold checkLeafHeader Btree.checkLeafHeader
  dsimp only
  split
  · rfl
  · simp only [getU16_eq, refuse_bind]
    refine bind_congr fun count => bind_congr fun freeStart => ?_
    split
    · rfl
    · split <;> rfl

theorem decode_eq (least : headerSize ≤ pageSize) (bytes : Bytes) :
    decode pageSize bytes = refuse (Btree.decode pageSize bytes) := by
  unfold decode Btree.decode
  dsimp only
  split
  · rfl
  · rename_i sized
    have inside : offKind < bytes.length := by
      simp only [headerSize, offKind, ne_eq, not_not] at *
      omega
    have kind : bytes[offKind] = bytes.getD offKind 0 := (getD_eq_getElem _ _ inside).symm
    simp only [byteAt_eq inside, kind, ok_bind, getU16_eq, getU64_eq, refuse_bind]
    refine bind_congr fun count => bind_congr fun freeStart => bind_congr fun leftmost => ?_
    split
    · rfl
    · split
      · rfl
      · simp only [refuse_bind, refuse_mapM]
        refine bind_congr fun slots => ?_
        have leaves : decodeLeafCell bytes = fun slot => refuse (Btree.decodeLeafCell bytes slot) :=
          funext (decodeLeafCell_eq bytes)
        have inners : decodeInternalCell bytes pageSize =
            fun slot => refuse (Btree.decodeInternalCell bytes pageSize slot) :=
          funext (decodeInternalCell_eq bytes pageSize)
        unfold decodeCells
        rw [leaves, inners]
        split
        · simp only [refuse_bind, refuse_mapM]
          rfl
        · split
          · simp only [refuse_bind, refuse_mapM]
            rfl
          · rfl

theorem leafKeyAt_eq (bytes : Bytes) (offset : Nat) :
    leafKeyAt bytes offset = refuse (Btree.leafKeyAt bytes offset) := by
  unfold leafKeyAt Btree.leafKeyAt get
  simp only [getU16_eq, refuse_bind]
  refine bind_congr fun slot => ?_
  cases isHead : slice? bytes slot 2 with
  | none => rfl
  | some head =>
    simp only [ok_bind, number_eq (slice?_length isHead)]
    cases slice? bytes (slot + 2) (ofLe head) <;> rfl

theorem leafEdgeKeys_eq (bytes : Bytes) (pageSize : Nat) :
    leafEdgeKeys bytes pageSize = refuse (Btree.leafEdgeKeys bytes pageSize) := by
  unfold leafEdgeKeys Btree.leafEdgeKeys
  simp only [checkLeafHeader_eq, refuse_bind]
  refine bind_congr fun count => ?_
  split
  · rfl
  · simp only [leafKeyAt_eq, refuse_bind]
    rfl

/-! ## The scan in place -/

theorem inside_of_checkLeafHeader {count : Nat}
    (header : Btree.checkLeafHeader bytes pageSize = .ok count) :
    bytes.length = pageSize ∧ headerSize + slotSize * count ≤ bytes.length := by
  simp only [Btree.checkLeafHeader] at header
  split at header
  · cases header
  rename_i sized
  obtain ⟨found, -, header⟩ := bind_eq_ok header
  obtain ⟨freeStart, -, header⟩ := bind_eq_ok header
  split at header
  · cases header
  split at header
  · cases header
  cases header
  have sized : bytes.length = pageSize := by simpa using sized
  exact ⟨sized, by omega⟩

/-- The slot a directory holds at a position. -/
def slotAt (bytes : Bytes) (i : Nat) : Nat := ofLe (slice bytes (headerSize + slotSize * i) slotSize)

theorem chunks_slice (count start : Nat) (inside : start + slotSize * count ≤ bytes.length) :
    chunks (slice bytes start (slotSize * count)) =
      (List.range count).map fun i => slice bytes (start + slotSize * i) slotSize := by
  induction count generalizing start with
  | zero => rfl
  | succ count ih =>
    simp only [slotSize] at inside ih ⊢
    have first : slice bytes start 2 = [bytes[start], bytes[start + 1]] := by
      rw [slice, drop_eq_getElem_cons (by omega), drop_eq_getElem_cons (by omega)]
      rfl
    have split : slice bytes start (2 * (count + 1)) =
        bytes[start] :: bytes[start + 1] :: slice bytes (start + 2) (2 * count) := by
      rw [slice, drop_eq_getElem_cons (by omega), drop_eq_getElem_cons (by omega)]
      rfl
    rw [split, chunks, ih (start + 2) (by omega), range_succ_eq_map, map_cons, <- first, map_map]
    refine congrArg (slice bytes start 2 :: ·) ?_
    refine map_congr_left fun i _ => ?_
    congr 1
    omega

theorem getU16_slots {count : Nat} (inside : headerSize + slotSize * count ≤ bytes.length) :
    ∀ i ∈ List.range count, Btree.getU16 bytes (headerSize + slotSize * i) = .ok (slotAt bytes i) := by
  intro i member
  have below := mem_range.mp member
  have fits : headerSize + slotSize * i + 2 ≤ bytes.length := by
    simp only [slotSize] at *
    omega
  rw [Btree.getU16, slice?_eq_some fits]
  rfl

variable {items : List α} {key : ByteRange} {value : ValueRef} {slots : List Nat}
    {entries : List Entry}

theorem mapM_eq_map {β : Type} {read : α -> Except Error β} {value : α -> β}
    (reads : ∀ item ∈ items, read item = .ok (value item)) :
    items.mapM read = .ok (items.map value) := by
  induction items with
  | nil => rfl
  | cons item items ih =>
    rw [forall_mem_cons] at reads
    rw [mapM_cons, reads.1, ih reads.2]
    rfl

theorem foldlM_congr {β : Type} {first second : β -> α -> Reading β}
    (same : ∀ item ∈ items, ∀ out, first out item = second out item) (out : β) :
    items.foldlM first out = items.foldlM second out := by
  induction items generalizing out with
  | nil => rfl
  | cons item items ih =>
    rw [forall_mem_cons] at same
    rw [foldlM_cons, foldlM_cons, same.1 out]
    exact bind_congr fun next => ih same.2 next

/-- One cell of a scan in place. -/
def visitCell {Out : Type} (bytes : Bytes) (f : Bytes -> ValueRef -> Out -> Reading Out) (out : Out)
    (slot : Nat) : Reading Out := do
  let entry <- refuse (Btree.decodeLeafCell bytes slot)
  f (keyBytes bytes entry.key) entry.value out

theorem bytesIn_key {slot : Nat} (parsed : Btree.parseLeafCell bytes slot = .ok (key, value)) :
    bytesIn bytes key = .ok (key.of bytes) := by
  unfold Btree.parseLeafCell at parsed
  split at parsed
  · cases parsed
  rename_i head isHead
  dsimp only at parsed
  split at parsed
  · cases parsed
  rename_i tag isTag
  have inside := (List.getElem?_eq_some_iff.mp isTag).1
  have isKey : key = ⟨slot + 2, slot + 2 + ofLe head⟩ := by
    split at parsed
    · split at parsed
      · cases parsed
      · split at parsed
        · cases parsed
        · cases parsed
          rfl
    · split at parsed
      · split at parsed
        · cases parsed
        · cases parsed
          rfl
      · cases parsed
  subst isKey
  exact bytesIn_eq (by simp) (by simp only; omega)

/-- The value of a cell, with `&bytes[range]` of an inline one. -/
def valueIn (bytes : Bytes) : ValueRef -> Reading ValueView
  | .inline range => do return .inline (<- bytesIn bytes range)
  | .owned value => .ok (.inline value)
  | .overflow first length => .ok (.overflow first length)

/-- The value of a cell that is accepted lies in the page. -/
theorem ranged_of_parse {slot : Nat} (parsed : Btree.parseLeafCell bytes slot = .ok (key, value)) :
    value.Ranged bytes := by
  unfold Btree.parseLeafCell at parsed
  split at parsed
  · cases parsed
  dsimp only at parsed
  split at parsed
  · cases parsed
  split at parsed
  · split at parsed
    · cases parsed
    split at parsed
    · cases parsed
    rename_i inside
    cases parsed
    exact ⟨Nat.le_add_right _ _, not_lt.mp inside⟩
  · split at parsed
    · split at parsed
      · cases parsed
      · cases parsed
        trivial
    · cases parsed

theorem valueIn_eq (ranged : value.Ranged bytes) :
    valueIn bytes value = .ok (value.view bytes) := by
  cases value with
  | inline range =>
    rw [valueIn, bytesIn_eq ranged.1 ranged.2]
    rfl
  | owned value => rfl
  | overflow first length => rfl

theorem decodeLeafCellRef_eq (bytes : Bytes) (slot : Nat) :
    decodeLeafCellRef bytes slot = refuse ((Btree.decodeLeafCell bytes slot).map fun entry =>
      (keyBytes bytes entry.key, entry.value)) := by
  rw [decodeLeafCellRef, parseLeafCell_eq, Btree.decodeLeafCell]
  cases parsed : Btree.parseLeafCell bytes slot with
  | error error => rfl
  | ok cell =>
    simp only [refuse_ok, ok_bind, bytesIn_key parsed]
    rfl

variable {Out : Type}

theorem scanLeafCells_eq (bytes : Bytes) (pageSize : Nat)
    (f : Bytes -> ValueRef -> Out -> Reading Out) (out : Out) :
    scanLeafCells bytes pageSize f out = (do
      let count <- refuse (Btree.checkLeafHeader bytes pageSize)
      ((List.range count).map (slotAt bytes)).foldlM (visitCell bytes f) out) := by
  unfold scanLeafCells
  rw [checkLeafHeader_eq]
  cases header : Btree.checkLeafHeader bytes pageSize with
  | error error => rfl
  | ok count =>
    obtain ⟨-, inside⟩ := inside_of_checkLeafHeader header
    have directory : bytesIn bytes ⟨headerSize, headerSize + slotSize * count⟩ =
        .ok (slice bytes headerSize (slotSize * count)) := by
      rw [bytesIn_eq (by simp) inside]
      simp only [ByteRange.of, ByteRange.len, Nat.add_sub_cancel_left]
    simp only [refuse_ok, ok_bind, directory, chunks_slice count headerSize inside]
    rw [foldlM_map, foldlM_map]
    refine foldlM_congr (fun i member out => ?_) out
    have below := mem_range.mp member
    have fits : headerSize + slotSize * i + slotSize ≤ bytes.length := by
      simp only [slotSize] at *
      omega
    have slot : number (slice bytes (headerSize + slotSize * i) slotSize) 2 =
        .ok (slotAt bytes i) := number_eq (length_slice fits)
    rw [slot, ok_bind, parseLeafCell_eq, visitCell, Btree.decodeLeafCell]
    change (do
      let (key, value) <- refuse (Btree.parseLeafCell bytes (slotAt bytes i))
      let key <- bytesIn bytes key
      f key value out) = _
    cases parsed : Btree.parseLeafCell bytes (slotAt bytes i) with
    | error error => rfl
    | ok cell =>
      obtain ⟨key, value⟩ := cell
      simp only [refuse_ok, ok_bind, bytesIn_key parsed]
      rfl

/-! ## The decoder and the scan agree -/

theorem decode_leaf (least : headerSize ≤ pageSize) (kind : bytes.getD offKind 0 = kindLeaf) :
    Btree.decode pageSize bytes = (do
      let count <- Btree.checkLeafHeader bytes pageSize
      let entries <- ((List.range count).map (slotAt bytes)).mapM (Btree.decodeLeafCell bytes)
      return .leaf bytes entries) := by
  unfold Btree.decode Btree.checkLeafHeader
  dsimp only
  split
  · rfl
  · rename_i sized
    have long : offLeftmost + 8 ≤ bytes.length := by
      simp only [headerSize, offLeftmost, ne_eq, not_not] at *
      omega
    have leftmost : Btree.getU64 bytes offLeftmost = .ok (ofLe (slice bytes offLeftmost 8)) := by
      rw [Btree.getU64, slice?_eq_some long]
    simp only [bind_assoc]
    refine bind_congr fun count => bind_congr fun freeStart => ?_
    rw [leftmost, ok_bind]
    split
    · rfl
    · split
      · rfl
      · rename_i past overlaps
        have inside : headerSize + slotSize * count ≤ bytes.length := by
          simp only [ne_eq, not_not] at sized
          omega
        simp only [pure_bind, mapM_eq_map (getU16_slots inside), ok_bind]

theorem foldlM_of_mapM_ok (parsed : slots.mapM (Btree.decodeLeafCell bytes) = .ok entries)
    (f : Bytes -> ValueRef -> Out -> Reading Out) (out : Out) :
    slots.foldlM (visitCell bytes f) out =
      entries.foldlM (fun out entry => f (keyBytes bytes entry.key) entry.value out) out := by
  have cells := mapM_forall₂ parsed
  clear parsed
  induction cells generalizing out with
  | nil => rfl
  | @cons slot entry slots entries cell _ ih =>
    rw [foldlM_cons, foldlM_cons, visitCell, cell]
    exact bind_congr fun next => ih next

theorem foldlM_of_mapM_error {error : Error}
    (refused : slots.mapM (Btree.decodeLeafCell bytes) = .error error)
    (f : Bytes -> ValueRef -> Out -> Out) (out : Out) :
    slots.foldlM (visitCell bytes fun key value out => .ok (f key value out)) out =
      .error (.refused error) := by
  induction slots generalizing out with
  | nil => cases refused
  | cons slot slots ih =>
    rw [mapM_cons] at refused
    rw [foldlM_cons, visitCell]
    cases parsed : Btree.decodeLeafCell bytes slot with
    | error first =>
      rw [parsed] at refused
      cases refused
      rfl
    | ok entry =>
      rw [parsed, ok_bind] at refused
      refine ih ?_ _
      cases rest : slots.mapM (Btree.decodeLeafCell bytes) with
      | error later =>
        rw [rest] at refused
        cases refused
        rfl
      | ok entries =>
        rw [rest] at refused
        cases refused

/-- The keys at the ends of a leaf. -/
def edgeKeys (bytes : Bytes) (entries : List Entry) : Option (Bytes × Bytes) :=
  match entries.head?, entries.getLast? with
  | some first, some last => some (keyBytes bytes first.key, keyBytes bytes last.key)
  | _, _ => none

/-- The values of the cells that are accepted lie in the page. -/
theorem ranged_of_mapM (parsed : slots.mapM (Btree.decodeLeafCell bytes) = .ok entries) :
    ∀ entry ∈ entries, entry.value.Ranged bytes := by
  have cells := mapM_forall₂ parsed
  clear parsed
  induction cells with
  | nil => nofun
  | cons cell _ ih =>
    refine forall_mem_cons.mpr ⟨?_, ih⟩
    obtain ⟨⟨key, value⟩, found, result⟩ := bind_eq_ok cell
    cases result
    exact ranged_of_parse found

/-- Add a cell to those a scan has read, its value read out of the page. -/
def readCell (bytes key : Bytes) (value : ValueRef) (out : List (Bytes × ValueView)) :
    Reading (List (Bytes × ValueView)) := do
  return out ++ [(key, <- valueIn bytes value)]

theorem foldlM_readCell (ranged : ∀ entry ∈ entries, entry.value.Ranged bytes)
    (out : List (Bytes × ValueView)) :
    entries.foldlM (fun out entry => readCell bytes (keyBytes bytes entry.key) entry.value out) out =
      .ok (out ++ entries.map (Entry.view bytes)) := by
  induction entries generalizing out with
  | nil => simp [pure, Except.pure]
  | cons entry entries ih =>
    obtain ⟨here, later⟩ := forall_mem_cons.mp ranged
    rw [foldlM_cons, readCell, valueIn_eq here, ok_bind]
    exact (ih later _).trans (by rw [append_assoc]; rfl)

/-- The decoder and the scan in place of one leaf page: both accept it and read the same
cells, whose values lie in the page, or both refuse it for the same reason. -/
inductive Agree (pageSize : Nat) (bytes : Bytes) : Prop where
  | accepted (entries : List Entry)
      (decoded : decode pageSize bytes = .ok (.leaf bytes entries))
      (scanned : ∀ {Out : Type} (f : Bytes -> ValueRef -> Out -> Reading Out) (out : Out),
        scanLeafCells bytes pageSize f out =
          entries.foldlM (fun out entry => f (keyBytes bytes entry.key) entry.value out) out)
      (ranged : ∀ entry ∈ entries, entry.value.Ranged bytes)
      (contents : scanLeafCells bytes pageSize (readCell bytes) [] =
        .ok (entries.map (Entry.view bytes)))
      (counted : leafCellCount bytes pageSize = .ok entries.length)
      (edges : leafEdgeKeys bytes pageSize = .ok (edgeKeys bytes entries))
  | refused (error : Error) (decoded : decode pageSize bytes = .error (.refused error))
      (scanned : ∀ {Out : Type} (f : Bytes -> ValueRef -> Out -> Out) (out : Out),
        scanLeafCells bytes pageSize (fun key value out => .ok (f key value out)) out =
          .error (.refused error))

theorem agree_of_leaf (least : headerSize ≤ pageSize)
    (kind : bytes.getD offKind 0 = kindLeaf) : Agree pageSize bytes := by
  have whole := decode_leaf least kind
  cases header : Btree.checkLeafHeader bytes pageSize with
  | error error =>
    rw [header] at whole
    refine .refused error (by rw [decode_eq least, whole]; rfl) fun f out => ?_
    rw [scanLeafCells_eq, header]
    rfl
  | ok count =>
    rw [header, ok_bind] at whole
    cases cells : ((List.range count).map (slotAt bytes)).mapM (Btree.decodeLeafCell bytes) with
    | error error =>
      rw [cells] at whole
      refine .refused error (by rw [decode_eq least, whole]; rfl) fun f out => ?_
      rw [scanLeafCells_eq, header, refuse_ok, ok_bind]
      exact foldlM_of_mapM_error cells f out
    | ok entries =>
      rw [cells] at whole
      obtain ⟨-, -, counted, -⟩ := leaf_cells whole
      have scanned {Out : Type} (f : Bytes -> ValueRef -> Out -> Reading Out) (out : Out) :
          scanLeafCells bytes pageSize f out =
            entries.foldlM (fun out entry => f (keyBytes bytes entry.key) entry.value out) out := by
        rw [scanLeafCells_eq, header, refuse_ok, ok_bind]
        exact foldlM_of_mapM_ok cells f out
      have ranged := ranged_of_mapM cells
      refine .accepted entries (by rw [decode_eq least, whole]; rfl) scanned ranged ?_ ?_ ?_
      · rw [scanned, foldlM_readCell ranged, nil_append]
      · rw [leafCellCount, checkLeafHeader_eq, counted]
        rfl
      · rw [Raw.leafEdgeKeys_eq, Btree.leafEdgeKeys_eq whole]
        rfl

theorem scanLeafCells_inside {f : Bytes -> ValueRef -> Out -> Reading Out}
    (inside : ∀ key value out, f key value out ≠ .error .outOfBounds) (out : Out) :
    scanLeafCells bytes pageSize f out ≠ .error .outOfBounds := by
  rw [scanLeafCells_eq]
  cases Btree.checkLeafHeader bytes pageSize with
  | error error => exact fun same => by cases same
  | ok count =>
    rw [refuse_ok, ok_bind]
    generalize (List.range count).map (slotAt bytes) = slots
    induction slots generalizing out with
    | nil => exact fun same => by cases same
    | cons slot slots ih =>
      rw [foldlM_cons, visitCell]
      cases Btree.decodeLeafCell bytes slot with
      | error error => exact fun same => by cases same
      | ok entry =>
        rw [refuse_ok, ok_bind]
        cases visited : f (keyBytes bytes entry.key) entry.value out with
        | error fault =>
          intro same
          cases same
          exact inside _ _ _ visited
        | ok next => exact ih next

end Header

/-! ## The codec -/

/-- The page codec for one page size. -/
structure CodecHolds (pageSize : Nat) : Prop where
  /-- A leaf whose entries fit decodes to entries with the same keys and values. -/
  leaves : ∀ (source : Bytes) (entries : List Entry),
    (∀ entry ∈ entries, entry.value.Ranged source) ->
    (∀ entry ∈ entries, (entry.value.view source).Below (2 ^ 64)) ->
    leafSize source entries ≤ pageSize ->
    ∃ page decoded, encodeLeaf pageSize source entries = .ok page ∧ page.length = pageSize ∧
      decode pageSize page = .ok (.leaf page decoded) ∧
      decoded.map (Entry.view page) = entries.map (Entry.view source)
  /-- An internal node whose separators fit decodes to the same children and keys. -/
  inners : ∀ (source : Bytes) (leftmost : Nat) (cells : List Separator),
    leftmost < 2 ^ 64 -> (∀ cell ∈ cells, cell.child < 2 ^ 64) ->
    internalSize source cells ≤ pageSize ->
    ∃ page decoded, encodeInternal pageSize source leftmost cells = .ok page ∧
      page.length = pageSize ∧ decode pageSize page = .ok (.internal page leftmost decoded) ∧
      decoded.map (Separator.view page) = cells.map (Separator.view source)
  /-- On a page of the leaf kind the two parsers agree. -/
  agree : ∀ bytes : Bytes, bytes.length = pageSize -> bytes[offKind]? = some kindLeaf ->
    Agree pageSize bytes
  /-- Whatever the bytes, nothing is read outside them. -/
  inside : ∀ bytes : Bytes, decode pageSize bytes ≠ .error .outOfBounds ∧
    leafCellCount bytes pageSize ≠ .error .outOfBounds ∧
    leafEdgeKeys bytes pageSize ≠ .error .outOfBounds ∧
    (∀ slot, decodeLeafCellRef bytes slot ≠ .error .outOfBounds) ∧
    ∀ {Out : Type} (f : Bytes -> ValueRef -> Out -> Reading Out),
      (∀ key value out, f key value out ≠ .error .outOfBounds) ->
      ∀ out, scanLeafCells bytes pageSize f out ≠ .error .outOfBounds

theorem decode_of_fits {pageSize : Nat} (node : Node) (least : headerSize ≤ pageSize)
    (most : pageSize < 2 ^ 16) (fits : node.Fits pageSize) (below : node.view.Below (2 ^ 64)) :
    ∃ page decoded, encodeNode pageSize node = .ok page ∧ page.length = pageSize ∧
      decode pageSize page = .ok decoded ∧ decoded.bytes = page ∧ decoded.view = node.view := by
  obtain ⟨page, encoded, length, reads⟩ := decode_encodeNode fits most
  obtain ⟨decoded, isDecoded, -, same⟩ := reads below
  refine ⟨page, decoded, encoded, length, by rw [decode_eq least, isDecoded]; rfl, ?_, same⟩
  obtain ⟨count, slots, -, -, ⟨-, entries, -, rfl⟩ | ⟨-, leftmost, cells, rfl⟩⟩ :=
    decode_eq_ok isDecoded
  · rfl
  · rfl

/-- The codec holds for every page size from 64 to 65535. -/
theorem page_codec {pageSize : Nat} (least : 64 ≤ pageSize) (most : pageSize < 2 ^ 16) :
    CodecHolds pageSize where
  leaves := by
    intro source entries ranged below fits
    obtain ⟨page, decoded, encoded, length, isDecoded, isPage, same⟩ :=
      decode_of_fits (.leaf source entries) (by simp only [headerSize]; omega) most
        ⟨ranged, fits⟩ (by
          intro cell member
          obtain ⟨entry, inEntries, rfl⟩ := mem_map.mp member
          exact below entry inEntries)
    cases decoded with
    | internal source' leftmost cells => cases same
    | leaf source' decoded =>
      obtain rfl : source' = page := isPage
      exact ⟨source', decoded, encoded, length, isDecoded, by injection same⟩
  inners := by
    intro source leftmost cells small below fits
    obtain ⟨page, decoded, encoded, length, isDecoded, isPage, same⟩ :=
      decode_of_fits (.internal source leftmost cells) (by simp only [headerSize]; omega)
        most fits ⟨small, by
          intro cell member
          obtain ⟨separator, inCells, rfl⟩ := mem_map.mp member
          exact below separator inCells⟩
    cases decoded with
    | leaf source' entries => cases same
    | internal source' found decoded =>
      obtain rfl : source' = page := isPage
      injection same with sameLeftmost sameCells
      subst sameLeftmost
      exact ⟨source', decoded, encoded, length, isDecoded, sameCells⟩
  agree := by
    intro bytes sized kind
    refine agree_of_leaf (by simp only [headerSize]; omega) ?_
    rw [getD_eq_getElem?_getD, kind]
    rfl
  inside := by
    intro bytes
    refine ⟨?_, ?_, ?_, fun slot => ?_, fun f inside out => scanLeafCells_inside inside out⟩
    · rw [decode_eq (by simp only [headerSize]; omega)]
      exact refuse_ne_outOfBounds _
    · rw [leafCellCount, checkLeafHeader_eq]
      exact refuse_ne_outOfBounds _
    · rw [Raw.leafEdgeKeys_eq]
      exact refuse_ne_outOfBounds _
    · rw [decodeLeafCellRef_eq]
      exact refuse_ne_outOfBounds _

/-- The least page size the codec is promised for. -/
theorem page_codec_least : 64 ≤ 64 ∧ CodecHolds 64 :=
  ⟨le_rfl, page_codec le_rfl (by decide)⟩

end Raw

end InlaySql.Btree
