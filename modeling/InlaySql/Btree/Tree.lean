import InlaySql.Wal.Record
import Std.Data.TreeMap

/-!
# The copy-on-write tree

A transaction copies the pages on its path into `dirty` and rewrites its own dirty
pages in place; the committed pages under it are read through `Pages` and never
change. Reads of the open transaction look in `dirty` first.

Page reuse is off throughout: a fresh page is the next number of the counter and
`supersede` records nothing. The recursions of the source carry a bound on their
depth here and report `stackOverflow` when it is used up.
-/

namespace InlaySql.Btree

open Lib Wal

/-- Committed pages, as a handle reads them. -/
structure Pages where
  node : Nat -> Except Error Node
  overflow : Nat -> Except Error (Nat × Bytes)

/-- Pages decoded straight from a data area. -/
def Pages.ofArea (pageSize : Nat) (area : Nat -> Bytes) : Pages where
  node id := decode pageSize (area id)
  overflow id := decodeOverflow pageSize (area id)

/-- A page of the open transaction, encoded or still held as cells. -/
inductive DirtyPage where
  | encoded (bytes : Bytes)
  | decoded (node : Node)
  deriving DecidableEq, Repr

/-- `<[u8] as Ord>::cmp`. -/
def bytesCmp (a b : Bytes) : Ordering := List.compareLex compare a b

/-- The fields of `CowBTree` that describe the tree and its open transaction. -/
structure CowBTree where
  pageSize : Nat
  root : Nat
  nextPageId : Nat
  dirty : Std.TreeMap Nat DirtyPage
  pendingRoot : Nat
  pendingNext : Nat
  hasPending : Bool
  pendingOps : Std.TreeMap Bytes (Option Bytes) bytesCmp

namespace CowBTree

/-- An empty tree with nothing pending. -/
def empty (pageSize : Nat) : CowBTree where
  pageSize
  root := 0
  nextPageId := 1
  dirty := ∅
  pendingRoot := 0
  pendingNext := 1
  hasPending := false
  pendingOps := ∅

def beginTxn (self : CowBTree) : CowBTree :=
  if self.hasPending then self
  else { self with pendingRoot := self.root, pendingNext := self.nextPageId, hasPending := true }

/-- `rollback`: drop the open transaction. -/
def rollback (self : CowBTree) : CowBTree :=
  { self with dirty := ∅, pendingOps := ∅, hasPending := false }

/-- `node_at` for a pending read. -/
def nodeAt (committed : Pages) (self : CowBTree) (id : Nat) : Except Error Node :=
  match self.dirty[id]? with
  | some (.decoded node) => .ok node
  | some (.encoded bytes) => decode self.pageSize bytes
  | none => committed.node id

/-- `read_overflow_page` for a pending read. -/
def readOverflowPage (committed : Pages) (self : CowBTree) (id : Nat) :
    Except Error (Nat × Bytes) :=
  match self.dirty[id]? with
  | some (.encoded bytes) => decodeOverflow self.pageSize bytes
  | some (.decoded node) => do decodeOverflow self.pageSize (<- encodeNode self.pageSize node)
  | none => committed.overflow id

/-- The pages a pending read sees. -/
def pages (committed : Pages) (self : CowBTree) : Pages where
  node := self.nodeAt committed
  overflow := self.readOverflowPage committed

/-- `alloc_page` with reuse off. -/
def allocPage (self : CowBTree) : Nat × CowBTree :=
  (self.pendingNext, { self with pendingNext := self.pendingNext + 1 })

/-- `supersede` with reuse off: a page of this transaction is dropped, a committed
one stays where it is. -/
def supersede (self : CowBTree) (id : Nat) : CowBTree :=
  if id ∈ self.dirty then { self with dirty := self.dirty.erase id } else self

def supersedeTaken (self : CowBTree) (id : Nat) (wasDirty : Bool) : CowBTree :=
  if wasDirty then self else self.supersede id

/-- The page the next version of `source` goes to. -/
def slotFor (self : CowBTree) (source : Nat) (wasDirty : Bool) : Nat × CowBTree :=
  if wasDirty then (source, self) else (self.supersede source).allocPage

/-- Lift a page out of `dirty`, or copy a committed one, to change it. -/
def takeNodeForWrite (committed : Pages) (self : CowBTree) (id : Nat) :
    Except Error (Node × Bool × CowBTree) :=
  match self.dirty[id]? with
  | some (.encoded bytes) => do
      let node <- decode self.pageSize bytes
      return (node, true, { self with dirty := self.dirty.erase id })
  | some (.decoded node) => .ok (node, true, { self with dirty := self.dirty.erase id })
  | none => do
      let node <- committed.node id
      return (node, false, self)

/-- Put a page the transaction holds as cells. -/
def putNode (self : CowBTree) (id : Nat) (node : Node) : CowBTree :=
  { self with dirty := self.dirty.insert id (.decoded node) }

/-! ## Values -/

/-- `value.chunks(payload)`, `count` of them. -/
def chunks (payload : Nat) : Nat -> Bytes -> List Bytes
  | 0, _ => []
  | count + 1, value => value.take payload :: chunks payload count (value.drop payload)

/-- `value.len().div_ceil(payload)`. -/
def chunkCount (payload : Nat) (value : Bytes) : Nat := (value.length + payload - 1) / payload

/-- Allocate `count` pages in a row. -/
def allocPages (self : CowBTree) : Nat -> List Nat × CowBTree
  | 0 => ([], self)
  | count + 1 =>
    let (id, self) := self.allocPage
    let (ids, self) := self.allocPages count
    (id :: ids, self)

/-- Write each chunk to its page, linked to the next one. -/
def writeChain (self : CowBTree) : List Nat -> List Bytes -> Except Error CowBTree
  | id :: ids, chunk :: rest => do
      let bytes <- encodeOverflow self.pageSize (ids.headD 0) chunk
      writeChain { self with dirty := self.dirty.insert id (.encoded bytes) } ids rest
  | _, _ => .ok self

/-- The leaf representation of a value: inline, or a fresh overflow chain. -/
def storeValue (self : CowBTree) (key value : Bytes) : Except Error (ValueRef × CowBTree) :=
  if inlineEntryFits self.pageSize key value then .ok (.owned value, self)
  else do
    let payload := overflowPayloadSize self.pageSize
    let count := chunkCount payload value
    let (ids, self) := self.allocPages count
    let self <- self.writeChain ids (chunks payload count value)
    return (.overflow (ids.headD 0) value.length, self)

/-- The chain loop of `resolve_scanned_at`. -/
def readChain (pages : Pages) (length : Nat) : Nat -> Nat -> Bytes -> Except Error Bytes
  | turns, id, out =>
    if out.length < length then
      if id = 0 then
        .error (.corrupt "overflow chain ended before the value was complete")
      else match turns with
        | 0 => .error .stackOverflow
        | turns + 1 => do
            let (next, data) <- pages.overflow id
            readChain pages length turns next (out ++ data.take (length - out.length))
    else .ok out

/-- `resolve_scanned_at`: the bytes of a leaf value. -/
def resolveScannedAt (pageSize : Nat) (pages : Pages) (nodeBytes : Bytes) :
    ValueRef -> Except Error Bytes
  | .inline range => .ok (range.of nodeBytes)
  | .owned bytes => .ok bytes
  | .overflow first length =>
    let capacity := maxRecordLen pageSize
    if length > capacity then
      .error (.corrupt s!"overflow value length {length} exceeds the write-ahead log capacity {capacity}")
    else readChain pages length length first []

/-! ## Descent -/

/-- The child slot `key` belongs in: 0 is the leftmost child. -/
def childIndex (bytes : Bytes) (cells : List Separator) (key : Bytes) : Nat :=
  routeSeparators bytes cells key

/-- The child in slot `idx`. -/
def childAt (cells : List Separator) (leftmost : Nat) (idx : Nat) : Nat :=
  if idx = 0 then leftmost else (cells[idx - 1]?.map Separator.child).getD 0

def childPointer (bytes : Bytes) (cells : List Separator) (leftmost : Nat) (key : Bytes) :
    Nat :=
  childAt cells leftmost (childIndex bytes cells key)

/-- Point child slot `idx` at `newChild`. -/
def replaceChild (cells : List Separator) (leftmost : Nat) (idx : Nat) (newChild : Nat) :
    List Separator × Nat :=
  if idx = 0 then (cells, newChild)
  else (cells.modify (idx - 1) fun cell => { cell with child := newChild }, leftmost)

/-- Where a descent through one page goes next. -/
inductive Descent where
  | leaf
  | internal (idx : Nat) (child : Nat)

def descend (pages : Pages) (id : Nat) (key : Bytes) : Except Error Descent := do
  match <- pages.node id with
  | .leaf _ _ => return .leaf
  | .internal bytes leftmost cells =>
    return .internal (childIndex bytes cells key) (childPointer bytes cells leftmost key)

def kindChanged (id : Nat) : Error :=
  .corrupt s!"page {id} changed kind between the descent and the write"

/-! ## Insertion -/

/-- What an insertion under one page did to that page. -/
inductive InsertOutcome where
  | replaced (id : Nat)
  | split (left right : Nat) (separator : Bytes)
  deriving DecidableEq, Repr

/-- Reserve the right half's page with the unsplit node back in `dirty`. -/
def reserveSplitPage (committed : Pages) (self : CowBTree) (leftId : Nat) (node : Node) :
    Except Error (Nat × Node × CowBTree) := do
  let (rightId, self) := (self.putNode leftId node).allocPage
  let (node, _, self) <- self.takeNodeForWrite committed leftId
  return (rightId, node, self)

/-- Put a leaf back, split in two when it no longer fits its page. -/
def settleLeaf (committed : Pages) (self : CowBTree) (id : Nat) (wasDirty : Bool)
    (bytes : Bytes) (entries : List Entry) : Except Error (InsertOutcome × CowBTree) :=
  if leafSize bytes entries ≤ self.pageSize then
    let (newId, self) := self.slotFor id wasDirty
    .ok (.replaced newId, self.putNode newId (.leaf bytes entries))
  else do
    let (leftId, self) := self.slotFor id wasDirty
    let (rightId, node, self) <- self.reserveSplitPage committed leftId (.leaf bytes entries)
    match node with
    | .internal _ _ _ => throw (kindChanged leftId)
    | .leaf bytes entries =>
      let mid := leafSplitPoint bytes entries self.pageSize
      let right := entries.drop mid
      let separator := entryKey bytes right 0
      let self := self.putNode leftId (.leaf bytes (entries.take mid))
      return (.split leftId rightId separator, self.putNode rightId (.leaf bytes right))

/-- Put an internal node back, split in two when it no longer fits its page. -/
def settleInternal (committed : Pages) (self : CowBTree) (id : Nat) (wasDirty : Bool)
    (bytes : Bytes) (leftmost : Nat) (cells : List Separator) :
    Except Error (InsertOutcome × CowBTree) :=
  if internalSize bytes cells ≤ self.pageSize then
    let (newId, self) := self.slotFor id wasDirty
    .ok (.replaced newId, self.putNode newId (.internal bytes leftmost cells))
  else do
    let (leftId, self) := self.slotFor id wasDirty
    let (rightId, node, self) <- self.reserveSplitPage committed leftId
      (.internal bytes leftmost cells)
    match node with
    | .leaf _ _ => throw (kindChanged leftId)
    | .internal bytes leftmost cells =>
      let mid := internalSplitPoint bytes cells self.pageSize
      let right := cells.drop mid
      let promoted := separatorKey bytes right 0
      let rightLeftmost := (right.head?.map Separator.child).getD 0
      let self := self.putNode leftId (.internal bytes leftmost (cells.take mid))
      return (.split leftId rightId promoted,
        self.putNode rightId (.internal bytes rightLeftmost right.tail))

/-- Store `value` under `key` among a leaf's entries. -/
def placeEntry (bytes : Bytes) (entries : List Entry) (key : Bytes) (value : ValueRef) :
    List Entry :=
  match searchEntries bytes entries key with
  | .ok i => entries.modify i fun entry => { entry with value }
  | .error i => entries.insertIdx i { key := .owned key, value }

/-- Point the cells of an internal node at the two halves of a split child. -/
def placeSplit (cells : List Separator) (leftmost : Nat) (idx : Nat) (left right : Nat)
    (separator : Bytes) : List Separator × Nat :=
  let (cells, leftmost) := replaceChild cells leftmost idx left
  (cells.insertIdx idx { key := .owned separator, child := right }, leftmost)

/-- The internal branch of `insert_into` once its child is done: point the node at
what the child became. -/
def absorbOutcome (committed : Pages) (self : CowBTree) (id : Nat) (wasDirty : Bool)
    (bytes : Bytes) (leftmost : Nat) (cells : List Separator) (idx : Nat) :
    InsertOutcome -> Except Error (InsertOutcome × CowBTree)
  | .replaced newChild =>
    let (cells, leftmost) := replaceChild cells leftmost idx newChild
    let (newId, self) := self.slotFor id wasDirty
    .ok (.replaced newId, self.putNode newId (.internal bytes leftmost cells))
  | .split left right separator =>
    let (cells, leftmost) := placeSplit cells leftmost idx left right separator
    self.settleInternal committed id wasDirty bytes leftmost cells

def insertInto (committed : Pages) (key value : Bytes) :
    Nat -> CowBTree -> Nat -> Except Error (InsertOutcome × CowBTree)
  | 0, _, _ => .error .stackOverflow
  | depth + 1, self, id =>
    if id = 0 then do
      let (stored, self) <- self.storeValue key value
      let (newId, self) := self.allocPage
      return (.replaced newId, self.putNode newId (.leaf [] [{ key := .owned key, value := stored }]))
    else do
      match <- descend (self.pages committed) id key with
      | .internal idx child =>
        let (outcome, self) <- insertInto committed key value depth self child
        let (node, wasDirty, self) <- self.takeNodeForWrite committed id
        match node with
        | .leaf _ _ => throw (kindChanged id)
        | .internal bytes leftmost cells =>
          self.absorbOutcome committed id wasDirty bytes leftmost cells idx outcome
      | .leaf =>
        let (stored, self) <- self.storeValue key value
        let (node, wasDirty, self) <- self.takeNodeForWrite committed id
        match node with
        | .internal _ _ _ => throw (kindChanged id)
        | .leaf bytes entries =>
          self.settleLeaf committed id wasDirty bytes (placeEntry bytes entries key stored)

/-! ## Deletion -/

/-- Drop `key` from a leaf's entries. -/
def dropEntry (bytes : Bytes) (entries : List Entry) (key : Bytes) : List Entry :=
  match searchEntries bytes entries key with
  | .ok i => entries.eraseIdx i
  | .error _ => entries

/-- `delete_from`: the page that takes `id`'s place, 0 when nothing is left. -/
def deleteFrom (committed : Pages) (key : Bytes) :
    Nat -> CowBTree -> Nat -> Except Error (Nat × CowBTree)
  | 0, _, _ => .error .stackOverflow
  | depth + 1, self, id =>
    if id = 0 then .ok (0, self)
    else do
      match <- descend (self.pages committed) id key with
      | .internal idx child =>
        let (newChild, self) <- deleteFrom committed key depth self child
        let (node, wasDirty, self) <- self.takeNodeForWrite committed id
        match node with
        | .leaf _ _ => throw (kindChanged id)
        | .internal bytes leftmost cells =>
          let (cells, leftmost) := replaceChild cells leftmost idx newChild
          let (newId, self) := self.slotFor id wasDirty
          return (newId, self.putNode newId (.internal bytes leftmost cells))
      | .leaf =>
        let (node, wasDirty, self) <- self.takeNodeForWrite committed id
        match node with
        | .internal _ _ _ => throw (kindChanged id)
        | .leaf bytes entries =>
          let entries := dropEntry bytes entries key
          if entries.isEmpty then return (0, self.supersedeTaken id wasDirty)
          else
            let (newId, self) := self.slotFor id wasDirty
            return (newId, self.putNode newId (.leaf bytes entries))

/-! ## The transaction's operations -/

/-- Whether a key fits a leaf cell with an overflow pointer and a separator. -/
def keyFits (pageSize : Nat) (key : Bytes) : Bool :=
  16 + 2 + 2 + key.length + 1 + 16 ≤ pageSize / 2 ∧ 16 + 2 + 2 + key.length + 8 ≤ pageSize / 2

/-- A path visits a page at most once, so no descent is deeper than the counter. -/
def depth (self : CowBTree) : Nat := self.pendingNext + 1

/-- Make the outcome under the root the new root, one level up after a split. -/
def growRoot (self : CowBTree) : InsertOutcome -> CowBTree
  | .replaced id => { self with pendingRoot := id }
  | .split left right separator =>
    let (id, self) := self.allocPage
    { self.putNode id (.internal [] left [{ key := .owned separator, child := right }]) with
      pendingRoot := id }

def put (committed : Pages) (self : CowBTree) (key value : Bytes) : Except Error CowBTree := do
  if ¬ keyFits self.pageSize key then
    throw (.storage "key is too large for a page")
  let self := self.beginTxn
  let (outcome, self) <- insertInto committed key value self.depth self self.pendingRoot
  let self := self.growRoot outcome
  return { self with pendingOps := self.pendingOps.insert key (some value) }

def delete (committed : Pages) (self : CowBTree) (key : Bytes) : Except Error CowBTree := do
  let self := self.beginTxn
  let (newRoot, self) <- deleteFrom committed key self.depth self self.pendingRoot
  return { self with pendingRoot := newRoot, pendingOps := self.pendingOps.insert key none }

/-- One turn of the loop of `materialize_dirty`. -/
def materializePage (pageSize : Nat) (dirty : Std.TreeMap Nat DirtyPage) :
    Nat × DirtyPage -> Except Error (Std.TreeMap Nat DirtyPage)
  | (_, .encoded _) => .ok dirty
  | (id, .decoded node) => do
      let bytes <- encodeNode pageSize node
      return dirty.insert id (.encoded bytes)

/-- `materialize_dirty`: encode every dirty page that is still cells. -/
def materializeDirty (self : CowBTree) : Except Error CowBTree := do
  let dirty <- self.dirty.toList.foldlM (materializePage self.pageSize) self.dirty
  return { self with dirty }

/-- `write_dirty_pages`: the data area with the transaction's encoded pages in it. -/
def writeDirtyPages (self : CowBTree) (area : Nat -> Bytes) (id : Nat) : Bytes :=
  match self.dirty[id]? with
  | some (.encoded bytes) => bytes
  | _ => area id

/-! ## Reads -/

/-- `descend_get` from page `id`. -/
def descendGet (pageSize : Nat) (pages : Pages) (key : Bytes) :
    Nat -> Nat -> Except Error (Option Bytes)
  | 0, _ => .error .stackOverflow
  | depth + 1, id =>
    if id = 0 then .ok none
    else do
      match <- pages.node id with
      | .leaf bytes entries =>
        match searchEntries bytes entries key with
        | .ok i =>
          match entries[i]? with
          | some entry => return some (<- resolveScannedAt pageSize pages bytes entry.value)
          | none => return none
        | .error _ => return none
      | .internal bytes leftmost cells =>
        descendGet pageSize pages key depth (childPointer bytes cells leftmost key)

/-- The bounds of a range walk. -/
structure WalkBounds where
  start : Bytes
  stop : Option Bytes
  after : Option Bytes
  limit : Option Nat
  deriving DecidableEq, Repr

namespace WalkBounds

/-- Whether `count` entries fill the caller's limit; `none` is `usize::MAX`. -/
def full (bounds : WalkBounds) (count : Nat) : Bool :=
  match bounds.limit with
  | some limit => count ≥ limit
  | none => false

/-- Whether one entry belongs in the answer. -/
def admits (bounds : WalkBounds) (key : Bytes) : Bool :=
  if (keyCmp key bounds.start).isLT then false
  else if bounds.stop.any fun stop => (keyCmp key stop).isGE then false
  else match bounds.after with
    | some after => (keyCmp key after).isGT
    | none => true

/-- Whether a subtree below `edge` can still hold a wanted key. -/
def startsBelow (bounds : WalkBounds) (edge : Bytes) : Bool :=
  if (keyCmp bounds.start edge).isGE then false
  else match bounds.after with
    | some after => (keyCmp after edge).isLT
    | none => true

/-- `below_upper`: whether a child behind `separator` can hold a key under the bound. -/
def belowUpper (bounds : WalkBounds) (separator : Bytes) : Bool :=
  match bounds.stop with
  | some stop => decide (separator < stop)
  | none => true

/-- `above_lower`: whether a child in front of the next separator can hold a key past
the lower bounds. -/
def aboveLower (bounds : WalkBounds) (next : Option Bytes) : Bool :=
  match next with
  | some edge => bounds.startsBelow edge
  | none => true

end WalkBounds

/-- The leaf branch of `walk`. -/
def walkEntries (pageSize : Nat) (pages : Pages) (bounds : WalkBounds) (bytes : Bytes) :
    List Entry -> List (Bytes × Bytes) -> Except Error (List (Bytes × Bytes))
  | [], out => .ok out
  | entry :: rest, out =>
    if bounds.full out.length then .ok out
    else
      let key := keyBytes bytes entry.key
      if bounds.admits key then do
        let value <- resolveScannedAt pageSize pages bytes entry.value
        walkEntries pageSize pages bounds bytes rest (out ++ [(key, value)])
      else walkEntries pageSize pages bounds bytes rest out

/-- Walk a child that can hold a wanted key, pass any other by. -/
def visitIf (visit : Nat -> List (Bytes × Bytes) -> Except Error (List (Bytes × Bytes)))
    (wanted : Bool) (child : Nat) (out : List (Bytes × Bytes)) :
    Except Error (List (Bytes × Bytes)) :=
  if wanted then visit child out else .ok out

/-- The separator loop of `walk`, with the recursive call as `visit`. -/
def walkCells (bounds : WalkBounds) (bytes : Bytes)
    (visit : Nat -> List (Bytes × Bytes) -> Except Error (List (Bytes × Bytes))) :
    List Separator -> List (Bytes × Bytes) -> Except Error (List (Bytes × Bytes))
  | [], out => .ok out
  | separator :: rest, out =>
    if bounds.full out.length then .ok out
    else do
      let out <- visitIf visit (bounds.belowUpper (keyBytes bytes separator.key) &&
        bounds.aboveLower (rest.head?.map fun next => keyBytes bytes next.key))
        separator.child out
      walkCells bounds bytes visit rest out

/-- `walk`: collect the entries under `id` that the bounds admit. -/
def walk (pageSize : Nat) (pages : Pages) (bounds : WalkBounds) :
    Nat -> Nat -> List (Bytes × Bytes) -> Except Error (List (Bytes × Bytes))
  | 0, _, _ => .error .stackOverflow
  | depth + 1, id, out =>
    if id = 0 ∨ bounds.full out.length then .ok out
    else do
      match <- pages.node id with
      | .leaf bytes entries => walkEntries pageSize pages bounds bytes entries out
      | .internal bytes leftmost cells =>
        let out <- visitIf (walk pageSize pages bounds depth)
          (bounds.aboveLower (cells.head?.map fun next => keyBytes bytes next.key)) leftmost out
        walkCells bounds bytes (walk pageSize pages bounds depth) cells out

/-- `prefix_upper_bound`: the first key past every key that starts with `front`. -/
def prefixUpperBound (front : Bytes) : Option Bytes :=
  match front.reverse.dropWhile (· = 255) with
  | [] => none
  | last :: rest => some (rest.reverse ++ [last + 1])

/-- The root a read sees. -/
def readRoot (self : CowBTree) : Nat := if self.hasPending then self.pendingRoot else self.root

/-- The pages a read sees. -/
def readPages (committed : Pages) (self : CowBTree) : Pages :=
  if self.hasPending then self.pages committed else committed

/-- The depth bound of a read: every page it can visit is below the counter. -/
def readDepth (self : CowBTree) : Nat :=
  (if self.hasPending then self.pendingNext else self.nextPageId) + 1

/-- `get`, with the open transaction's own writes. -/
def get (committed : Pages) (self : CowBTree) (key : Bytes) : Except Error (Option Bytes) :=
  descendGet self.pageSize (self.readPages committed) key self.readDepth self.readRoot

/-- `get_at`: look `key` up under a committed root whose pages are below `next`. -/
def getAt (pageSize : Nat) (committed : Pages) (next root : Nat) (key : Bytes) :
    Except Error (Option Bytes) :=
  descendGet pageSize committed key (next + 1) root

def scanRangeFrom (committed : Pages) (self : CowBTree) (bounds : WalkBounds) :
    Except Error (List (Bytes × Bytes)) :=
  if bounds.limit = some 0 ∨ bounds.stop.any (· ≤ bounds.start) then .ok []
  else walk self.pageSize (self.readPages committed) bounds self.readDepth self.readRoot []

/-- `scan`: every entry, in key order. -/
def scan (committed : Pages) (self : CowBTree) : Except Error (List (Bytes × Bytes)) :=
  self.scanRangeFrom committed ⟨[], prefixUpperBound [], none, none⟩

end CowBTree

end InlaySql.Btree
