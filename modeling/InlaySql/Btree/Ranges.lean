import InlaySql.Btree.Commit

/-!
# The other range reads

`walk` is one of five walks. `count_in_range` reads whole leaves from their headers,
`last_in_range` goes from the right edge, and the row-id and row-value walks parse leaf
cells straight off the page and may start from the leaf an earlier walk ended in. They
prune by the same separators, so each visits exactly the entries `walk` collects.
-/

namespace InlaySql.Btree

open Lib Wal

/-! ## Leaves read in place -/

/-- `check_leaf_header`: the cell count. -/
def checkLeafHeader (bytes : Bytes) (pageSize : Nat) : Except Error Nat := do
  let length := bytes.length
  if length ≠ pageSize then
    throw (.corrupt s!"page is {length} bytes, expected {pageSize}")
  let count <- getU16 bytes offCellCount
  let freeStart <- getU16 bytes offFreeStart
  if freeStart > pageSize then
    throw (.corrupt "free start past end of page")
  if headerSize + slotSize * count > freeStart then
    throw (.corrupt "slot directory overlaps cell area")
  return count

def leafCellCount (bytes : Bytes) (pageSize : Nat) : Except Error Nat :=
  checkLeafHeader bytes pageSize

/-- `leaf_key_at`: the key of the cell whose slot is stored at `offset`. -/
def leafKeyAt (bytes : Bytes) (offset : Nat) : Except Error Bytes := do
  let slot <- getU16 bytes offset
  match slice? bytes slot 2 with
  | none => throw (.corrupt "leaf cell runs past end of page")
  | some head =>
    match slice? bytes (slot + 2) (ofLe head) with
    | some key => return key
    | none => throw (.corrupt "leaf key runs past end of page")

/-- `leaf_edge_keys`: the first and last keys of a leaf. -/
def leafEdgeKeys (bytes : Bytes) (pageSize : Nat) : Except Error (Option (Bytes × Bytes)) := do
  let count <- checkLeafHeader bytes pageSize
  if count = 0 then return none
  let first <- leafKeyAt bytes headerSize
  let last <- leafKeyAt bytes (headerSize + slotSize * (count - 1))
  return some (first, last)

/-- `scan_leaf_cells`: run `visit` over every cell, in slot order. -/
def scanLeafCells {Out : Type} (bytes : Bytes) (pageSize : Nat)
    (visit : Bytes -> ValueRef -> Out -> Except Error Out) (out : Out) : Except Error Out := do
  let count <- checkLeafHeader bytes pageSize
  (List.range count).foldlM (fun out i => do
    let slot <- getU16 bytes (headerSize + slotSize * i)
    let (key, value) <- parseLeafCell bytes slot
    visit (key.of bytes) value out) out

/-- `trailing_row_id`: the last eight bytes of a key, big-endian. -/
def trailingRowId (key : Bytes) : Except Error Nat :=
  if 8 ≤ key.length then .ok (ofBe (key.drop (key.length - 8)))
  else .error (.corrupt "key is too short to carry a row id")

/-! ## What the walks do with a leaf -/

namespace CowBTree

namespace WalkBounds

/-- The lower edge that matters. -/
def effectiveLower (bounds : WalkBounds) : Bytes :=
  match bounds.after with
  | some after => if bounds.start < after then after else bounds.start
  | none => bounds.start

/-- `admits_whole_leaf`: whether both edge keys are wanted. -/
def admitsWholeLeaf (bounds : WalkBounds) (bytes : Bytes) (pageSize : Nat) :
    Except Error Bool := do
  match <- leafEdgeKeys bytes pageSize with
  | some (first, last) => return bounds.admits first && bounds.admits last
  | none => return false

end WalkBounds

/-- The closure both raw walks hand to `scan_leaf_cells`. -/
def takeRow {Row : Type} (bounds : WalkBounds) (taken : Bytes -> Bool)
    (read : Bytes -> ValueRef -> Except Error Row) (key : Bytes) (value : ValueRef)
    (out : List Row) : Except Error (List Row) :=
  if bounds.full out.length then .ok out
  else if taken key then do return out ++ [<- read key value]
  else .ok out

/-- `scan_leaf_into`: the admitted rows of one leaf, with their values. -/
def scanLeafInto (pageSize : Nat) (pages : Pages) (bounds : WalkBounds) (bytes : Bytes)
    (out : List (Nat × Bytes)) : Except Error (List (Nat × Bytes)) := do
  let whole <- bounds.admitsWholeLeaf bytes pageSize
  scanLeafCells bytes pageSize (takeRow bounds (fun key => whole || bounds.admits key)
    fun key value => do
      let row <- resolveScannedAt pageSize pages bytes value
      return (<- trailingRowId key, row)) out

/-- `scan_leaf_row_ids_into`: the admitted row ids of one leaf. -/
def scanLeafRowIdsInto (pageSize : Nat) (bounds : WalkBounds) (bytes : Bytes) (out : List Nat) :
    Except Error (List Nat) :=
  scanLeafCells bytes pageSize (takeRow bounds bounds.admits fun key _ => trailingRowId key) out

/-- `count_leaf`: the admitted cells of a raw leaf. -/
def countLeaf (pageSize : Nat) (bounds : WalkBounds) (bytes : Bytes) : Except Error Nat := do
  let count <- leafCellCount bytes pageSize
  if count = 0 then return 0
  let whole <- bounds.admitsWholeLeaf bytes pageSize
  if whole then return count
  scanLeafCells bytes pageSize (fun key _ admitted =>
    .ok (if bounds.admits key then admitted + 1 else admitted)) 0

/-- The leaf branch of `count_node`. -/
def countEntries (bounds : WalkBounds) (bytes : Bytes) (entries : List Entry) : Nat :=
  let whole := match entries.head?, entries.getLast? with
    | some first, some last =>
      bounds.admits (keyBytes bytes first.key) && bounds.admits (keyBytes bytes last.key)
    | _, _ => false
  if whole then entries.length
  else (entries.filter fun entry => bounds.admits (keyBytes bytes entry.key)).length

/-! ## Where the walks find a page -/

/-- A page as a walk opens it: a leaf in the form the walk reads, or an internal node. -/
inductive Opened (Leaf : Type) where
  | leaf (leaf : Leaf)
  | internal (bytes : Bytes) (leftmost : Nat) (cells : List Separator)

/-- A leaf as a count finds it: decoded, or the bytes of its page. -/
inductive CountedLeaf where
  | decoded (bytes : Bytes) (entries : List Entry)
  | raw (bytes : Bytes)

/-- `cached_page`: a committed page of the node cache, which is not asked for a page the
transaction has dirtied. `resident` says which pages the cache holds. -/
def cachedPage (resident : Nat -> Bool) (area : Nat -> Bytes) (self : CowBTree) (id : Nat) :
    Option Node :=
  if self.hasPending ∧ id ∈ self.dirty then none
  else if resident id then (decode self.pageSize (area id)).toOption
  else none

/-- The bytes of a page: the transaction's own, or the committed ones. The raw-leaf cache,
the device's shared buffers and the read-ahead window all hold the latter. -/
def rawPage (area : Nat -> Bytes) (self : CowBTree) (id : Nat) : Except Error Bytes :=
  if self.hasPending then
    match self.dirty[id]? with
    | some (.encoded bytes) => .ok bytes
    | some (.decoded node) => encodeNode self.pageSize node
    | none => .ok (area id)
  else .ok (area id)

/-- Dispatch on the kind byte: a leaf is left as bytes, an internal node is decoded. -/
def openBytes (pageSize : Nat) (bytes : Bytes) : Except Error (Opened Bytes) :=
  let kind := bytes.getD offKind 0
  if kind = kindLeaf then .ok (.leaf bytes)
  else if kind = kindInternal then do
    match <- decode pageSize bytes with
    | .leaf bytes _ => return .leaf bytes
    | .internal bytes leftmost cells => return .internal bytes leftmost cells
  else .error (.corrupt s!"unknown node kind {kind}")

/-- How `walk_raw_row_ids` and `walk_raw_row_values` find a page. -/
def openRaw (resident : Nat -> Bool) (area : Nat -> Bytes) (self : CowBTree) (id : Nat) :
    Except Error (Opened Bytes) :=
  match self.cachedPage resident area id with
  | some (.leaf bytes _) => .ok (.leaf bytes)
  | some (.internal bytes leftmost cells) => .ok (.internal bytes leftmost cells)
  | none => do openBytes self.pageSize (<- self.rawPage area id)

/-- A decoded page, to `count_node`. -/
def Opened.ofNode : Node -> Opened CountedLeaf
  | .leaf bytes entries => .leaf (.decoded bytes entries)
  | .internal bytes leftmost cells => .internal bytes leftmost cells

/-- How `walk_count` finds a page. -/
def openCounted (resident : Nat -> Bool) (area : Nat -> Bytes) (self : CowBTree) (id : Nat) :
    Except Error (Opened CountedLeaf) :=
  match if self.hasPending then self.dirty[id]? else none with
  | some (.decoded node) => .ok (.ofNode node)
  | some (.encoded bytes) => do return .ofNode (<- decode self.pageSize bytes)
  | none =>
    match self.cachedPage resident area id with
    | some node => .ok (.ofNode node)
    | none => do
        match <- openBytes self.pageSize (area id) with
        | .leaf bytes => return .leaf (.raw bytes)
        | .internal bytes leftmost cells => return .internal bytes leftmost cells

/-! ## The walks -/

/-- What tells the left-to-right walks apart: how they open a page, when they have enough
and what they do with a leaf. A leaf comes with its number and the separators around it. -/
structure Walker (Leaf Out : Type) where
  fetch : Nat -> Except Error (Opened Leaf)
  full : Out -> Bool
  scan : Nat -> Option Bytes -> Option Bytes -> Leaf -> Out -> Except Error Out

namespace Walker

variable {Leaf Out : Type}

/-- Walk a child that can hold a wanted key, pass any other by. -/
def visitWhen (wanted : Bool) (visit : Out -> Except Error Out) (out : Out) : Except Error Out :=
  if wanted then visit out else .ok out

/-- The separator loop, with the recursive call as `visit`. -/
def cells (walker : Walker Leaf Out) (bounds : WalkBounds) (bytes : Bytes)
    (visit : Nat -> Option Bytes -> Option Bytes -> Out -> Except Error Out) (high : Option Bytes) :
    List Separator -> Out -> Except Error Out
  | [], out => .ok out
  | separator :: rest, out =>
    if walker.full out then .ok out
    else do
      let low := keyBytes bytes separator.key
      let next := rest.head?.map fun next => keyBytes bytes next.key
      let out <- visitWhen (bounds.belowUpper low && bounds.aboveLower next)
        (visit separator.child (some low) (next.or high)) out
      walker.cells bounds bytes visit high rest out

/-- The walk from page `id`, whose keys are in `[low, high)`. -/
def walk (walker : Walker Leaf Out) (bounds : WalkBounds) :
    Nat -> Nat -> Option Bytes -> Option Bytes -> Out -> Except Error Out
  | 0, _, _, _, _ => .error .stackOverflow
  | depth + 1, id, low, high, out =>
    if id = 0 ∨ walker.full out then .ok out
    else do
      match <- walker.fetch id with
      | .leaf leaf => walker.scan id low high leaf out
      | .internal bytes leftmost cells =>
        let next := cells.head?.map fun next => keyBytes bytes next.key
        let out <- visitWhen (bounds.aboveLower next)
          (walker.walk bounds depth leftmost low (next.or high)) out
        walker.cells bounds bytes (walker.walk bounds depth) high cells out

end Walker

/-- `RangeCursorCandidate` with its two bounds, the last leaf of a row-id walk. -/
structure RangeCandidate where
  leaf : Nat
  low : Option Bytes
  high : Option Bytes

/-- `RawScanCursorCandidate` with its two bounds, the last leaf of a row-value walk. -/
structure RawScanCandidate where
  low : Option Bytes
  high : Option Bytes
  bytes : Bytes

/-- `walk_raw_row_ids`. -/
def rowIdWalker (resident : Nat -> Bool) (area : Nat -> Bytes) (self : CowBTree)
    (bounds : WalkBounds) : Walker Bytes (List Nat × Option RangeCandidate) where
  fetch := self.openRaw resident area
  full out := bounds.full out.1.length
  scan id low high bytes out := do
    let ids <- scanLeafRowIdsInto self.pageSize bounds bytes out.1
    return (ids, some { leaf := id, low, high })

/-- `walk_raw_row_values`. -/
def rowValueWalker (resident : Nat -> Bool) (area : Nat -> Bytes) (self : CowBTree)
    (bounds : WalkBounds) : Walker Bytes (List (Nat × Bytes) × Option RawScanCandidate) where
  fetch := self.openRaw resident area
  full out := bounds.full out.1.length
  scan _ low high bytes out := do
    let rows <- scanLeafInto self.pageSize
      (self.readPages (Pages.ofArea self.pageSize area)) bounds bytes out.1
    return (rows, some { low, high, bytes })

/-- `walk_count`, which has no limit to reach. -/
def countWalker (resident : Nat -> Bool) (area : Nat -> Bytes) (self : CowBTree)
    (bounds : WalkBounds) : Walker CountedLeaf Nat where
  fetch := self.openCounted resident area
  full _ := false
  scan _ _ _ leaf total :=
    match leaf with
    | .decoded bytes entries => .ok (total + countEntries bounds bytes entries)
    | .raw bytes => do return total + (<- countLeaf self.pageSize bounds bytes)

/-- The leaf branch of `walk_last`, over the entries from the last to the first. -/
def lastEntry (pageSize : Nat) (pages : Pages) (bounds : WalkBounds) (bytes : Bytes) :
    List Entry -> Except Error (Option (Bytes × Bytes))
  | [] => .ok none
  | entry :: rest =>
    let key := keyBytes bytes entry.key
    if bounds.admits key then do
      return some (key, <- resolveScannedAt pageSize pages bytes entry.value)
    else lastEntry pageSize pages bounds bytes rest

/-- The separator loop of `walk_last`, over the separators from the last to the first;
`next` is the one behind them. -/
def lastCells (bounds : WalkBounds) (bytes : Bytes)
    (visit : Nat -> Except Error (Option (Bytes × Bytes))) :
    List Separator -> Option Bytes -> Except Error (Option (Bytes × Bytes))
  | [], _ => .ok none
  | separator :: rest, next =>
    let low := keyBytes bytes separator.key
    if bounds.belowUpper low && bounds.aboveLower next then do
      match <- visit separator.child with
      | some found => return some found
      | none => lastCells bounds bytes visit rest (some low)
    else lastCells bounds bytes visit rest (some low)

/-- `walk_last`: the greatest wanted entry under `id`. -/
def walkLast (pageSize : Nat) (pages : Pages) (bounds : WalkBounds) :
    Nat -> Nat -> Except Error (Option (Bytes × Bytes))
  | 0, _ => .error .stackOverflow
  | depth + 1, id =>
    if id = 0 then .ok none
    else do
      match <- pages.node id with
      | .leaf bytes entries => lastEntry pageSize pages bounds bytes entries.reverse
      | .internal bytes leftmost cells =>
        match <- lastCells bounds bytes (walkLast pageSize pages bounds depth) cells.reverse
          none with
        | some found => return some found
        | none =>
          if bounds.aboveLower (cells.head?.map fun next => keyBytes bytes next.key) then
            walkLast pageSize pages bounds depth leftmost
          else return none

/-! ## The reads -/

/-- `RangeCursor`: the leaf the last row-id walk ended in. -/
structure RangeCursor where
  root : Nat
  leaf : Nat
  generation : Nat
  low : Option Bytes
  high : Option Bytes

/-- `RawScanCursor`: the leaf the last row-value walk ended in, as bytes. -/
structure RawScanCursor where
  root : Nat
  generation : Nat
  low : Option Bytes
  high : Option Bytes
  bytes : Bytes

/-- Whether the effective lower bound is in `[low, high)`. -/
def lowerIsIn (low high : Option Bytes) (bounds : WalkBounds) : Bool :=
  let lower := bounds.effectiveLower
  !(low.any (lower < ·)) && !(high.any (· ≤ lower))

/-- Whether a range up to `stop` ends in a leaf up to `high`. -/
def stopIsIn (high stop : Option Bytes) : Bool :=
  match stop, high with
  | none, some _ => false
  | some stop, some high => stop ≤ high
  | _, none => true

def RangeCursor.covers (cursor : RangeCursor) (bounds : WalkBounds) : Bool :=
  lowerIsIn cursor.low cursor.high bounds && stopIsIn cursor.high bounds.stop

def RawScanCursor.lowerIsInLeaf (cursor : RawScanCursor) (bounds : WalkBounds) : Bool :=
  lowerIsIn cursor.low cursor.high bounds

def RawScanCursor.endIsInLeaf (cursor : RawScanCursor) (stop : Option Bytes) : Bool :=
  stopIsIn cursor.high stop

/-- `scan_row_ids_from_range_cursor`: nothing when the cursor's page is no leaf. -/
def scanRowIdsFromRangeCursor (resident : Nat -> Bool) (area : Nat -> Bytes) (self : CowBTree)
    (cursor : RangeCursor) (bounds : WalkBounds) : Except Error (Option (List Nat)) := do
  match <- { self with hasPending := false }.openRaw resident area cursor.leaf with
  | .leaf bytes => return some (<- scanLeafRowIdsInto self.pageSize bounds bytes [])
  | .internal _ _ _ => return none

/-- `scan_row_values_from_cursor`: nothing when the leaf neither ends the range nor fills
the limit. -/
def scanRowValuesFromCursor (area : Nat -> Bytes) (self : CowBTree) (cursor : RawScanCursor)
    (bounds : WalkBounds) : Except Error (Option (List (Nat × Bytes))) := do
  let rows <- scanLeafInto self.pageSize (Pages.ofArea self.pageSize area) bounds cursor.bytes []
  if cursor.endIsInLeaf bounds.stop ∨ bounds.full rows.length then return some rows
  else return none

def lastInRange (committed : Pages) (self : CowBTree) (start : Bytes) (stop : Option Bytes) :
    Except Error (Option (Bytes × Bytes)) :=
  if stop.any (· ≤ start) then .ok none
  else walkLast self.pageSize (self.readPages committed) ⟨start, stop, none, none⟩ self.readDepth
    self.readRoot

def countInRange (resident : Nat -> Bool) (area : Nat -> Bytes) (self : CowBTree) (start : Bytes)
    (stop : Option Bytes) : Except Error Nat :=
  if stop.any (· ≤ start) then .ok 0
  else
    let bounds : WalkBounds := ⟨start, stop, none, none⟩
    (self.countWalker resident area bounds).walk bounds self.readDepth self.readRoot none none 0

/-- The answer of a cursor that may be used, if there is one and it has one. -/
def answerFrom {Cursor Rows : Type} (usable : Option Cursor)
    (answer : Cursor -> Except Error (Option Rows)) : Except Error (Option Rows) :=
  match usable with
  | some cursor => answer cursor
  | none => .ok none

/-- `scan_range_row_ids_from`, with the cursor it leaves. `generation` is what the device
answers; only a read without an open transaction asks. -/
def scanRangeRowIdsFrom (resident : Nat -> Bool) (area : Nat -> Bytes) (self : CowBTree)
    (cursor : Option RangeCursor) (generation : Option Nat) (bounds : WalkBounds) :
    Except Error (List Nat × Option RangeCursor) := do
  if bounds.limit = some 0 ∨ bounds.stop.any (· ≤ bounds.start) then return ([], cursor)
  let generation := if self.hasPending then none else generation
  let usable := cursor.filter fun cursor => cursor.root = self.readRoot ∧
    generation = some cursor.generation ∧ cursor.covers bounds
  let answered <- answerFrom usable (self.scanRowIdsFromRangeCursor resident area · bounds)
  match answered with
  | some ids => return (ids, cursor)
  | none =>
    let (ids, candidate) <- (self.rowIdWalker resident area bounds).walk bounds self.readDepth
      self.readRoot none none ([], none)
    let retained := generation.bind fun generation => candidate.map fun found =>
      { root := self.readRoot, leaf := found.leaf, generation, low := found.low
        high := found.high : RangeCursor }
    return (ids, retained.or cursor)

/-- `scan_range_row_values_raw_from`, with the cursor it leaves. -/
def scanRangeRowValuesRawFrom (resident : Nat -> Bool) (area : Nat -> Bytes) (self : CowBTree)
    (cursor : Option RawScanCursor) (generation : Option Nat) (bounds : WalkBounds) :
    Except Error (List (Nat × Bytes) × Option RawScanCursor) := do
  if bounds.limit = some 0 ∨ bounds.stop.any (· ≤ bounds.start) then return ([], cursor)
  let generation := if self.hasPending then none else generation
  let usable := cursor.filter fun cursor => cursor.root = self.readRoot ∧
    generation = some cursor.generation ∧ cursor.lowerIsInLeaf bounds
  let answered <- answerFrom usable (self.scanRowValuesFromCursor area · bounds)
  match answered with
  | some rows => return (rows, cursor)
  | none =>
    let (rows, candidate) <- (self.rowValueWalker resident area bounds).walk bounds
      self.readDepth self.readRoot none none ([], none)
    let retained := generation.bind fun generation => candidate.map fun found =>
      { root := self.readRoot, generation, low := found.low, high := found.high
        bytes := found.bytes : RawScanCursor }
    return (rows, retained.or cursor)

end CowBTree

end InlaySql.Btree
