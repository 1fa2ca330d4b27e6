import InlaySql.Lib.Bytes

/-!
# On-page layout

A page is a header, a slot directory that grows forward and cells packed from
the end backwards. A decoded `Node` keeps the page's bytes and holds its keys and
inline values as ranges into them; a key or value the write path has just made is
owned instead. Pages are numbered from 1, and page 0 stands for the empty tree.
-/

namespace InlaySql.Btree

open Lib

/-- The errors the storage layer reports. -/
inductive Error where
  | corrupt (message : String)
  | storage (message : String)
  | formatVersion (message : String)
  /-- A recursion deeper than any real tree: the source would run out of stack. -/
  | stackOverflow
  deriving DecidableEq, Repr

def offKind : Nat := 0
def offCellCount : Nat := 2
def offFreeStart : Nat := 4
def offLeftmost : Nat := 8
def headerSize : Nat := 16
def slotSize : Nat := 2
def valueInline : UInt8 := 0
def valueOverflow : UInt8 := 1
def offOverflowNext : Nat := 1
def overflowHeaderSize : Nat := 9
def kindLeaf : UInt8 := 0
def kindInternal : UInt8 := 1
def kindOverflow : UInt8 := 2

/-- `Range<usize>`. -/
structure ByteRange where
  start : Nat
  stop : Nat
  deriving DecidableEq, Repr

namespace ByteRange

/-- `range.len()`. -/
def len (range : ByteRange) : Nat := range.stop - range.start

/-- `&bytes[range]`. -/
def of (range : ByteRange) (bytes : Bytes) : Bytes := slice bytes range.start range.len

end ByteRange

/-- The value half of a leaf entry: a range of the page, owned bytes, or a
pointer to an overflow chain of `length` bytes. -/
inductive ValueRef where
  | inline (range : ByteRange)
  | owned (value : Bytes)
  | overflow (first : Nat) (length : Nat)
  deriving DecidableEq, Repr

/-- A key: a range of the node's page, or owned bytes not yet encoded. -/
inductive Key where
  | borrowed (range : ByteRange)
  | owned (bytes : Bytes)
  deriving DecidableEq, Repr

/-- A key/value pair of a leaf. -/
structure Entry where
  key : Key
  value : ValueRef
  deriving DecidableEq, Repr

/-- A separator of an internal node, with the child to its right. -/
structure Separator where
  key : Key
  child : Nat
  deriving DecidableEq, Repr

/-- A decoded node. `bytes` is the buffer its borrowed ranges index into. -/
inductive Node where
  | leaf (bytes : Bytes) (entries : List Entry)
  | internal (bytes : Bytes) (leftmost : Nat) (cells : List Separator)
  deriving DecidableEq, Repr

/-- The shared buffer of a node. -/
def Node.bytes : Node -> Bytes
  | .leaf bytes _ | .internal bytes _ _ => bytes

/-- `key_bytes`: the bytes a key stands for. -/
def keyBytes (source : Bytes) : Key -> Bytes
  | .borrowed range => range.of source
  | .owned bytes => bytes

/-- `ValueRef::inline_len`. -/
def ValueRef.inlineLen : ValueRef -> Nat
  | .inline range => range.len
  | .owned value => value.length
  | .overflow _ _ => 0

/-- Bytes one leaf cell occupies on the page. -/
def leafCellSize (key : Bytes) (value : ValueRef) : Nat :=
  2 + key.length + 1 + match value with
    | .inline _ | .owned _ => 4 + value.inlineLen
    | .overflow _ _ => 16

/-- Bytes a leaf page needs to hold `entries`. -/
def leafSize (source : Bytes) (entries : List Entry) : Nat :=
  headerSize + slotSize * entries.length +
    (entries.map fun entry => leafCellSize (keyBytes source entry.key) entry.value).sum

/-- Whether a pair fits half a leaf page without an overflow chain. -/
def inlineEntryFits (pageSize : Nat) (key value : Bytes) : Bool :=
  headerSize + slotSize + leafCellSize key (.owned value) ≤ pageSize / 2

/-- Bytes one internal cell occupies on the page. -/
def internalCellSize (key : Bytes) : Nat := 2 + key.length + 8

/-- Bytes an internal page needs to hold `cells`. -/
def internalSize (source : Bytes) (cells : List Separator) : Nat :=
  headerSize + slotSize * cells.length +
    (cells.map fun cell => internalCellSize (keyBytes source cell.key)).sum

/-- The loop of `split_point`, over the cells still to place. -/
def splitLoop {α : Type} (pageSize : Nat) (cellSize : α -> Nat) : List α -> Nat -> Nat -> Nat
  | [], _, split => split
  | cell :: rest, size, split =>
    if size + (slotSize + cellSize cell) > pageSize then split
    else splitLoop pageSize cellSize rest (size + (slotSize + cellSize cell)) (split + 1)

/-- The largest `n` below `cells.length` such that the first `n` cells fit a page. -/
def splitPoint {α : Type} (pageSize : Nat) (cells : List α) (cellSize : α -> Nat) : Nat :=
  splitLoop pageSize cellSize cells.dropLast headerSize 0

def leafSplitPoint (source : Bytes) (entries : List Entry) (pageSize : Nat) : Nat :=
  splitPoint pageSize entries fun entry =>
    leafCellSize (keyBytes source entry.key) entry.value

def internalSplitPoint (source : Bytes) (cells : List Separator) (pageSize : Nat) : Nat :=
  splitPoint pageSize cells fun cell => internalCellSize (keyBytes source cell.key)

/-! ## Encoding -/

/-- `write_u16` at `offset`. -/
def writeU16 (buffer : Bytes) (offset value : Nat) : Except Error Bytes :=
  if value < 2 ^ 16 then .ok (writeAt buffer offset (leBytes 2 value))
  else .error (.corrupt "value exceeds u16")

/-- A page under construction. -/
structure PageWriter where
  buf : Bytes
  cellCursor : Nat
  slotCursor : Nat
  deriving DecidableEq, Repr

/-- A zeroed page with its header, refused when `total` does not fit. -/
def PageWriter.new (pageSize : Nat) (kind : UInt8) (leftmost : Nat) (count total : Nat) :
    Except Error PageWriter := do
  if total > pageSize then
    throw (.storage s!"node needs {total} bytes, page holds {pageSize}")
  let zeroed := List.replicate pageSize 0
  let counted <- writeU16 (writeAt zeroed offKind [kind]) offCellCount count
  return {
    buf := writeAt counted offLeftmost (leBytes 8 leftmost)
    cellCursor := pageSize
    slotCursor := headerSize }

/-- Reserve the next cell at the tail, record its slot and fill it with `fields`,
which are exactly `size` bytes long. -/
def PageWriter.cell (page : PageWriter) (size : Nat) (fields : Bytes) :
    Except Error PageWriter := do
  let cursor := page.cellCursor - size
  let slotted <- writeU16 page.buf page.slotCursor cursor
  return {
    buf := writeAt slotted cursor fields
    cellCursor := cursor
    slotCursor := page.slotCursor + slotSize }

def PageWriter.finish (page : PageWriter) : Except Error Bytes :=
  writeU16 page.buf offFreeStart page.cellCursor

/-- `CellWriter::u16`. -/
def cellU16 (value : Nat) : Except Error Bytes :=
  if value < 2 ^ 16 then .ok (leBytes 2 value) else .error (.corrupt "value exceeds u16")

/-- `CellWriter::u32`. -/
def cellU32 (value : Nat) : Except Error Bytes :=
  if value < 2 ^ 32 then .ok (leBytes 4 value) else .error (.corrupt "value exceeds u32")

/-- The fields `encode_leaf` writes for one entry. -/
def leafCellFields (source : Bytes) (entry : Entry) : Except Error Bytes := do
  let key := keyBytes source entry.key
  let keyLen <- cellU16 key.length
  match entry.value with
  | .inline range =>
    let value := range.of source
    let valueLen <- cellU32 value.length
    return keyLen ++ key ++ [valueInline] ++ valueLen ++ value
  | .owned value =>
    let valueLen <- cellU32 value.length
    return keyLen ++ key ++ [valueInline] ++ valueLen ++ value
  | .overflow first length =>
    return keyLen ++ key ++ [valueOverflow] ++ leBytes 8 first ++ leBytes 8 length

def encodeLeaf (pageSize : Nat) (source : Bytes) (entries : List Entry) : Except Error Bytes := do
  let page <- PageWriter.new pageSize kindLeaf 0 entries.length (leafSize source entries)
  let filled <- entries.foldlM (fun page entry => do
    let fields <- leafCellFields source entry
    page.cell (leafCellSize (keyBytes source entry.key) entry.value) fields) page
  filled.finish

/-- The fields `encode_internal` writes for one separator. -/
def internalCellFields (source : Bytes) (cell : Separator) : Except Error Bytes := do
  let key := keyBytes source cell.key
  let keyLen <- cellU16 key.length
  return keyLen ++ key ++ leBytes 8 cell.child

def encodeInternal (pageSize : Nat) (source : Bytes) (leftmost : Nat)
    (cells : List Separator) : Except Error Bytes := do
  let page <- PageWriter.new pageSize kindInternal leftmost cells.length
    (internalSize source cells)
  let filled <- cells.foldlM (fun page cell => do
    let fields <- internalCellFields source cell
    page.cell (internalCellSize (keyBytes source cell.key)) fields) page
  filled.finish

/-- `encode_node`: encode a node with its own buffer as the source. -/
def encodeNode (pageSize : Nat) : Node -> Except Error Bytes
  | .leaf bytes entries => encodeLeaf pageSize bytes entries
  | .internal bytes leftmost cells => encodeInternal pageSize bytes leftmost cells

def overflowPayloadSize (pageSize : Nat) : Nat := pageSize - overflowHeaderSize

def encodeOverflow (pageSize : Nat) (next : Nat) (data : Bytes) : Except Error Bytes :=
  let needed := overflowHeaderSize + data.length
  if needed > pageSize then
    .error (.storage s!"overflow payload needs {needed} bytes, page holds {pageSize}")
  else
    let zeroed := List.replicate pageSize 0
    let linked := writeAt (writeAt zeroed offKind [kindOverflow]) offOverflowNext (leBytes 8 next)
    .ok (writeAt linked overflowHeaderSize data)

/-! ## Decoding -/

def getU16 (bytes : Bytes) (offset : Nat) : Except Error Nat :=
  match slice? bytes offset 2 with
  | some field => .ok (ofLe field)
  | none => .error (.corrupt "short read for u16")

def getU64 (bytes : Bytes) (offset : Nat) : Except Error Nat :=
  match slice? bytes offset 8 with
  | some field => .ok (ofLe field)
  | none => .error (.corrupt "short read for u64")

/-- `parse_leaf_cell`: the key's range and the value of the cell at `slot`. -/
def parseLeafCell (bytes : Bytes) (slot : Nat) : Except Error (ByteRange × ValueRef) :=
  match slice? bytes slot 2 with
  | none => .error (.corrupt "leaf cell runs past end of page")
  | some head =>
    let keyStart := slot + 2
    let keyEnd := keyStart + ofLe head
    match bytes[keyEnd]? with
    | none => .error (.corrupt "leaf key runs past end of page")
    | some tag =>
      if tag = valueInline then
        match slice? bytes (keyEnd + 1) 4 with
        | none => .error (.corrupt "leaf value length runs past end of page")
        | some field =>
          let valueEnd := keyEnd + 5 + ofLe field
          if valueEnd > bytes.length then
            .error (.corrupt "leaf value runs past end of page")
          else .ok (⟨keyStart, keyEnd⟩, .inline ⟨keyEnd + 5, valueEnd⟩)
      else if tag = valueOverflow then
        match slice? bytes (keyEnd + 1) 16 with
        | none => .error (.corrupt "overflow pointer runs past end of page")
        | some pointer =>
          .ok (⟨keyStart, keyEnd⟩, .overflow (ofLe (pointer.take 8)) (ofLe (pointer.drop 8)))
      else .error (.corrupt s!"unknown leaf value tag {tag}")

def decodeLeafCell (bytes : Bytes) (slot : Nat) : Except Error Entry := do
  let (key, value) <- parseLeafCell bytes slot
  return { key := .borrowed key, value }

def decodeInternalCell (bytes : Bytes) (pageSize slot : Nat) : Except Error Separator := do
  if slot + 2 > pageSize then
    throw (.corrupt "internal cell runs past end of page")
  let keyLen <- getU16 bytes slot
  let keyEnd := slot + 2 + keyLen
  if keyEnd + 8 > pageSize then
    throw (.corrupt "internal key runs past end of page")
  let child <- getU64 bytes keyEnd
  return { key := .borrowed ⟨slot + 2, keyEnd⟩, child }

/-- Decode a leaf or internal page. -/
def decode (pageSize : Nat) (bytes : Bytes) : Except Error Node := do
  let length := bytes.length
  if length ≠ pageSize then
    throw (.corrupt s!"page is {length} bytes, expected {pageSize}")
  let kind := bytes.getD offKind 0
  let count <- getU16 bytes offCellCount
  let freeStart <- getU16 bytes offFreeStart
  let leftmost <- getU64 bytes offLeftmost
  if freeStart > pageSize then
    throw (.corrupt "free start past end of page")
  if headerSize + slotSize * count > freeStart then
    throw (.corrupt "slot directory overlaps cell area")
  let slots <- (List.range count).mapM fun i => getU16 bytes (headerSize + slotSize * i)
  if kind = kindLeaf then
    let entries <- slots.mapM (decodeLeafCell bytes)
    return .leaf bytes entries
  else if kind = kindInternal then
    let cells <- slots.mapM (decodeInternalCell bytes pageSize)
    return .internal bytes leftmost cells
  else
    throw (.corrupt s!"unknown node kind {kind}")

/-- `overflow_next`: the next page of a chain. -/
def overflowNext (pageSize : Nat) (bytes : Bytes) : Except Error Nat := do
  let length := bytes.length
  if length ≠ pageSize then
    throw (.corrupt s!"overflow page is {length} bytes, expected {pageSize}")
  if bytes.getD offKind 0 ≠ kindOverflow then
    throw (.corrupt "expected an overflow page")
  getU64 bytes offOverflowNext

/-- Decode an overflow page into its next page and payload. -/
def decodeOverflow (pageSize : Nat) (bytes : Bytes) : Except Error (Nat × Bytes) := do
  let next <- overflowNext pageSize bytes
  return (next, bytes.drop overflowHeaderSize)

/-! ## Searching -/

/-- The number a byte string spells, most significant byte first. -/
def ofBe (bytes : Bytes) : Nat := bytes.foldl (fun value byte => 256 * value + byte.toNat) 0

/-- The eight bytes of `s` at `start`, big-endian. -/
def wordAt (s : Bytes) (start : Nat) : Nat := ofBe (slice s start 8)

def inlineCmpLimit : Nat := 128

/-- The byte loop of `word_cmp`, for keys with fewer than eight bytes in common.
The loops here carry the number of turns they have left. -/
def byteCmp (a b : Bytes) : Nat -> Nat -> Option Ordering
  | 0, _ => none
  | turns + 1, i =>
    if a.getD i 0 ≠ b.getD i 0 then some (cmp (a.getD i 0) (b.getD i 0))
    else byteCmp a b turns (i + 1)

/-- The word loop of `word_cmp` and its overlapping tail word. -/
def wordLoop (a b : Bytes) (n : Nat) : Nat -> Nat -> Option Ordering
  | turns + 1, i =>
    if wordAt a i ≠ wordAt b i then some (cmp (wordAt a i) (wordAt b i))
    else wordLoop a b n turns (i + 8)
  | 0, i =>
    if i < n then
      if 8 ≤ n then
        if wordAt a (n - 8) ≠ wordAt b (n - 8) then
          some (cmp (wordAt a (n - 8)) (wordAt b (n - 8)))
        else none
      else byteCmp a b (n - i) i
    else none

def wordCmp (a b : Bytes) (n : Nat) : Option Ordering := wordLoop a b n (n / 8) 0

/-- Compare two keys eight bytes at a time, or with `memcmp` when they are long. -/
def keyCmp (a b : Bytes) : Ordering :=
  let n := min a.length b.length
  if n > inlineCmpLimit then cmp a b
  else match wordCmp a b n with
    | some decided => decided
    | none => cmp a.length b.length

/-- The binary search of `search_entries`, over the window `[low, high)`. -/
def searchLoop (keys : Nat -> Bytes) (key : Bytes) : Nat -> Nat -> Nat -> Except Nat Nat
  | 0, low, _ => .error low
  | turns + 1, low, high =>
    if low < high then
      let mid := low + (high - low) / 2
      match keyCmp (keys mid) key with
      | .lt => searchLoop keys key turns (mid + 1) high
      | .gt => searchLoop keys key turns low mid
      | .eq => .ok mid
    else .error low

/-- The key of entry `index`, as `entries[index]` resolves it. -/
def entryKey (source : Bytes) (entries : List Entry) (index : Nat) : Bytes :=
  (entries[index]?.map fun entry => keyBytes source entry.key).getD []

/-- Find `key` among a leaf's entries: its index, or where it would be inserted. -/
def searchEntries (source : Bytes) (entries : List Entry) (key : Bytes) : Except Nat Nat :=
  searchLoop (entryKey source entries) key entries.length 0 entries.length

/-- The key of separator `index`. -/
def separatorKey (source : Bytes) (cells : List Separator) (index : Nat) : Bytes :=
  (cells[index]?.map fun cell => keyBytes source cell.key).getD []

/-- The partition-point search of `route_separators`. -/
def routeLoop (keys : Nat -> Bytes) (key : Bytes) : Nat -> Nat -> Nat -> Nat
  | 0, low, _ => low
  | turns + 1, low, high =>
    if low < high then
      let mid := low + (high - low) / 2
      if (keyCmp (keys mid) key).isLE then routeLoop keys key turns (mid + 1) high
      else routeLoop keys key turns low mid
    else low

/-- How many of an internal node's separators are at most `key`. -/
def routeSeparators (source : Bytes) (cells : List Separator) (key : Bytes) : Nat :=
  routeLoop (separatorKey source cells) key cells.length 0 cells.length

end InlaySql.Btree
