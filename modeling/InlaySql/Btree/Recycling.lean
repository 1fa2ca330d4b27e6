import InlaySql.Btree.RawLeaf
import InlaySql.Lib.Stateful

/-!
# The write path with page reuse

A handle that reclaims space draws page numbers from the free list, whose rows are rows of
the tree itself, before it takes the next number of its counter, and notes every committed
page it replaces. The operations of a transaction are computations over the handle: one
that fails leaves the pages it had already changed, and the transaction stays open.
-/

namespace InlaySql.Btree

open Lib Wal

/-- `FREE_LIST_PREFIX`. -/
def freeListPrefix : Bytes := [2, 102, 114, 101, 101, 0]

/-- `FREE_CANDIDATE_BATCH`. -/
def freeCandidateBatch : Nat := 64

/-- `free_list_key`: both numbers big-endian, so that the rows are in order of freeing. -/
def freeListKey (freedAt id : Nat) : Bytes :=
  freeListPrefix ++ (leBytes 8 freedAt).reverse ++ (leBytes 8 id).reverse

def decodeFreeListKey (key : Bytes) : Option (Nat × Nat) :=
  if freeListPrefix <+: key then
    let rest := key.drop freeListPrefix.length
    if rest.length ≠ 16 then none else some (ofBe (rest.take 8), ofBe (rest.drop 8))
  else none

/-- What the device answers a handle that writes: the committed pages, and the durable
commit point and the oldest reader, where it knows them. -/
structure Backing where
  committed : Pages
  commitPoint : Option Nat
  minReaderSeq : Option Nat

/-- The fields of `CowBTree` that a writing transaction uses. The vectors that are popped
are stacks, their last element first. `splits` is no field of the source: it records the
two halves of every split. -/
structure Writer extends CowBTree where
  reuseEnabled : Bool
  freeCandidates : List (Nat × Nat)
  freeScanCursor : Option Bytes
  freeListExhausted : Bool
  freedThisTxn : List Nat
  consumedThisTxn : List (Nat × Nat)
  consumedEverThisTxn : List (Nat × Nat)
  splits : List (Node × Node)

/-- A part of an operation of the open transaction. -/
abbrev Writing (α : Type) := Stateful Writer Halt α

namespace Writer

/-- Read the transaction's tree. -/
def ask {α : Type} (read : CowBTree -> Except Error α) : Writing α :=
  Stateful.tryGets fun self => refuse (read self.toCowBTree)

/-- Stop with an error of the storage layer. -/
def refused {α : Type} (error : Error) : Writing α := Stateful.fail (.refused error)

/-! ## Pages -/

/-- The row loop of `refill_free_candidates`: the resume point, the candidates, and whether
a row that is not yet eligible ended it. -/
def offerRows (eligibleBefore : Nat) (consumed : List (Nat × Nat)) :
    List (Bytes × Bytes) -> Option Bytes -> List (Nat × Nat) ->
      Option Bytes × List (Nat × Nat) × Bool
  | [], cursor, candidates => (cursor, candidates, false)
  | (key, _) :: rows, cursor, candidates =>
    match decodeFreeListKey key with
    | none => offerRows eligibleBefore consumed rows (some key) candidates
    | some (freedAt, id) =>
      if freedAt ≥ eligibleBefore then (cursor, candidates, true)
      else if (freedAt, id) ∈ consumed then
        offerRows eligibleBefore consumed rows (some key) candidates
      else offerRows eligibleBefore consumed rows (some key) ((freedAt, id) :: candidates)

/-- `refill_free_candidates`, whose error its one caller drops. -/
def refillFreeCandidates (backing : Backing) (self : Writer) : Writer :=
  if self.freeListExhausted then self
  else match backing.commitPoint, backing.minReaderSeq with
    | some point, some minReader =>
      let bounds : CowBTree.WalkBounds := ⟨freeListPrefix, CowBTree.prefixUpperBound freeListPrefix,
        self.freeScanCursor, some freeCandidateBatch⟩
      match self.scanRangeFrom backing.committed bounds with
      | .error _ => { self with freeScanCursor := none }
      | .ok rows =>
        let (cursor, candidates, hitBoundary) := offerRows (min point minReader)
          self.consumedEverThisTxn rows self.freeScanCursor self.freeCandidates
        { self with
          freeScanCursor := cursor
          freeCandidates := candidates
          freeListExhausted := hitBoundary || rows.length < freeCandidateBatch }
    | _, _ => self

/-- The next number of the counter, a 64-bit one. -/
def nextPage (self : Writer) : Nat × Writer :=
  (self.pendingNext, { self with pendingNext := (self.pendingNext + 1) % 2 ^ 64 })

def allocPage (backing : Backing) (self : Writer) : Nat × Writer :=
  if self.reuseEnabled then
    let self := if self.freeCandidates.isEmpty then self.refillFreeCandidates backing else self
    match self.freeCandidates with
    | (freedAt, id) :: rest => (id, { self with
        freeCandidates := rest
        consumedThisTxn := (freedAt, id) :: self.consumedThisTxn
        consumedEverThisTxn := (freedAt, id) :: self.consumedEverThisTxn })
    | [] => self.nextPage
  else self.nextPage

/-- `alloc_page`, as a part of an operation. -/
def alloc (backing : Backing) : Writing Nat := fun self =>
  (.ok (self.allocPage backing).1, (self.allocPage backing).2)

/-- Hold `node` decoded under `id`. -/
def hold (id : Nat) (node : Node) : Writing Unit :=
  Stateful.change fun self => { self with dirty := self.dirty.insert id (.decoded node) }

/-- Hold the bytes of a page that is complete. -/
def holdBytes (id : Nat) (bytes : Bytes) : Writing Unit :=
  Stateful.change fun self => { self with dirty := self.dirty.insert id (.encoded bytes) }

def supersede (id : Nat) (self : Writer) : Writer :=
  if id ∈ self.dirty then { self with dirty := self.dirty.erase id }
  else if self.reuseEnabled then { self with freedThisTxn := id :: self.freedThisTxn }
  else self

def supersedeTaken (id : Nat) (wasDirty : Bool) : Writing Unit :=
  if wasDirty then pure () else Stateful.change (supersede id)

def slotFor (backing : Backing) (source : Nat) (wasDirty : Bool) : Writing Nat :=
  if wasDirty then pure source
  else do
    Stateful.change (supersede source)
    alloc backing

def takeNodeForWrite (backing : Backing) (id : Nat) : Writing (Node × Bool) := do
  let (node, wasDirty, tree) <- ask (CowBTree.takeNodeForWrite backing.committed · id)
  Stateful.change fun self => { self with toCowBTree := tree }
  return (node, wasDirty)

/-- The loop of `free_overflow_chain`; a chain visits a page at most once. -/
def freeChain (backing : Backing) : Nat -> Nat -> Writing Unit
  | turns, id =>
    if id = 0 then pure ()
    else match turns with
      | 0 => refused .stackOverflow
      | turns + 1 => do
          let (next, _) <- ask (CowBTree.readOverflowPage backing.committed · id)
          Stateful.change (supersede id)
          freeChain backing turns next

/-- `free_overflow_chain`, of the chain an entry that was replaced or removed had. -/
def freeOverflowChain (backing : Backing) : Option ValueRef -> Writing Unit
  | some (.overflow first _) => do
      if <- Stateful.gets (·.reuseEnabled) then
        freeChain backing (<- Stateful.gets (·.depth)) first
  | _ => pure ()

/-! ## Values -/

/-- `count` pages in a row. -/
def allocPages (backing : Backing) : Nat -> Writing (List Nat)
  | 0 => pure []
  | count + 1 => do
      let id <- alloc backing
      let ids <- allocPages backing count
      return id :: ids

/-- Write each chunk to its page, linked to the next one. -/
def writeChain (pageSize : Nat) : List Nat -> List Bytes -> Writing Unit
  | id :: ids, chunk :: rest => do
      let bytes <- ask fun _ => encodeOverflow pageSize (ids.headD 0) chunk
      holdBytes id bytes
      writeChain pageSize ids rest
  | _, _ => pure ()

/-- `ids[0]`. -/
def firstOf : List Nat -> Writing Nat
  | id :: _ => pure id
  | [] => Stateful.fail .outOfBounds

def storeValue (backing : Backing) (key value : Bytes) : Writing ValueRef := do
  let pageSize <- Stateful.gets (·.pageSize)
  if inlineEntryFits pageSize key value then return .owned value
  else
    let payload := overflowPayloadSize pageSize
    let count := CowBTree.chunkCount payload value
    let ids <- allocPages backing count
    writeChain pageSize ids (CowBTree.chunks payload count value)
    let first <- firstOf ids
    return .overflow first value.length

/-! ## Splitting -/

def reserveSplitPage (backing : Backing) (leftId : Nat) (node : Node) : Writing (Nat × Node) := do
  hold leftId node
  let rightId <- alloc backing
  let (node, _) <- takeNodeForWrite backing leftId
  return (rightId, node)

/-- Hold the two halves of a split. -/
def holdHalves (leftId rightId : Nat) (left right : Node) : Writing Unit := do
  hold leftId left
  hold rightId right
  Stateful.change fun self => { self with splits := (left, right) :: self.splits }

/-- Put a leaf back, split in two when it no longer fits its page. -/
def settleLeaf (backing : Backing) (id : Nat) (wasDirty : Bool) (bytes : Bytes)
    (entries : List Entry) : Writing CowBTree.InsertOutcome := do
  let pageSize <- Stateful.gets (·.pageSize)
  if leafSize bytes entries ≤ pageSize then
    let newId <- slotFor backing id wasDirty
    hold newId (.leaf bytes entries)
    return .replaced newId
  else
    let leftId <- slotFor backing id wasDirty
    let (rightId, node) <- reserveSplitPage backing leftId (.leaf bytes entries)
    match node with
    | .internal _ _ _ => refused (CowBTree.kindChanged leftId)
    | .leaf bytes entries =>
      let mid := leafSplitPoint bytes entries pageSize
      match entries.drop mid with
      | [] => Stateful.fail .outOfBounds
      | opener :: rest =>
        holdHalves leftId rightId (.leaf bytes (entries.take mid))
          (.leaf bytes (opener :: rest))
        return .split leftId rightId (keyBytes bytes opener.key)

/-- Put an internal node back, split in two when it no longer fits its page. -/
def settleInternal (backing : Backing) (id : Nat) (wasDirty : Bool) (bytes : Bytes)
    (leftmost : Nat) (cells : List Separator) : Writing CowBTree.InsertOutcome := do
  let pageSize <- Stateful.gets (·.pageSize)
  if internalSize bytes cells ≤ pageSize then
    let newId <- slotFor backing id wasDirty
    hold newId (.internal bytes leftmost cells)
    return .replaced newId
  else
    let leftId <- slotFor backing id wasDirty
    let (rightId, node) <- reserveSplitPage backing leftId (.internal bytes leftmost cells)
    match node with
    | .leaf _ _ => refused (CowBTree.kindChanged leftId)
    | .internal bytes leftmost cells =>
      let mid := internalSplitPoint bytes cells pageSize
      match cells.drop mid with
      | [] => Stateful.fail .outOfBounds
      | promoted :: rest =>
        holdHalves leftId rightId (.internal bytes leftmost (cells.take mid))
          (.internal bytes promoted.child rest)
        return .split leftId rightId (keyBytes bytes promoted.key)

/-- The internal branch of `insert_into` once its child is done. -/
def absorbOutcome (backing : Backing) (id : Nat) (wasDirty : Bool) (bytes : Bytes)
    (leftmost : Nat) (cells : List Separator) (idx : Nat) :
    CowBTree.InsertOutcome -> Writing CowBTree.InsertOutcome
  | .replaced newChild => do
      let (cells, leftmost) := CowBTree.replaceChild cells leftmost idx newChild
      let newId <- slotFor backing id wasDirty
      hold newId (.internal bytes leftmost cells)
      return .replaced newId
  | .split left right separator =>
    let (cells, leftmost) := CowBTree.placeSplit cells leftmost idx left right separator
    settleInternal backing id wasDirty bytes leftmost cells

/-- The value `key` has among a leaf's entries. -/
def valueOf (bytes : Bytes) (entries : List Entry) (key : Bytes) : Option ValueRef :=
  match searchEntries bytes entries key with
  | .ok i => entries[i]?.map Entry.value
  | .error _ => none

/-! ## Insertion and deletion -/

def insertInto (backing : Backing) (key value : Bytes) :
    Nat -> Nat -> Writing CowBTree.InsertOutcome
  | 0, _ => refused .stackOverflow
  | depth + 1, id =>
    if id = 0 then do
      let stored <- storeValue backing key value
      let newId <- alloc backing
      hold newId (.leaf [] [{ key := .owned key, value := stored }])
      return .replaced newId
    else do
      match <- ask fun tree => CowBTree.descend (tree.pages backing.committed) id key with
      | .internal idx child => do
          let outcome <- insertInto backing key value depth child
          let (node, wasDirty) <- takeNodeForWrite backing id
          match node with
          | .leaf _ _ => refused (CowBTree.kindChanged id)
          | .internal bytes leftmost cells =>
            absorbOutcome backing id wasDirty bytes leftmost cells idx outcome
      | .leaf => do
          let stored <- storeValue backing key value
          let (node, wasDirty) <- takeNodeForWrite backing id
          match node with
          | .internal _ _ _ => refused (CowBTree.kindChanged id)
          | .leaf bytes entries => do
              let outcome <- settleLeaf backing id wasDirty bytes
                (CowBTree.placeEntry bytes entries key stored)
              freeOverflowChain backing (valueOf bytes entries key)
              return outcome

/-- The leaf branch of `delete_from` once the entry is gone. -/
def settleRemoval (backing : Backing) (id : Nat) (wasDirty : Bool) (bytes : Bytes)
    (entries : List Entry) : Writing Nat :=
  if entries.isEmpty then do
    supersedeTaken id wasDirty
    return 0
  else do
    let newId <- slotFor backing id wasDirty
    hold newId (.leaf bytes entries)
    return newId

def deleteFrom (backing : Backing) (key : Bytes) : Nat -> Nat -> Writing Nat
  | 0, _ => refused .stackOverflow
  | depth + 1, id =>
    if id = 0 then pure 0
    else do
      match <- ask fun tree => CowBTree.descend (tree.pages backing.committed) id key with
      | .internal idx child => do
          let newChild <- deleteFrom backing key depth child
          let (node, wasDirty) <- takeNodeForWrite backing id
          match node with
          | .leaf _ _ => refused (CowBTree.kindChanged id)
          | .internal bytes leftmost cells => do
              let (cells, leftmost) := CowBTree.replaceChild cells leftmost idx newChild
              let newId <- slotFor backing id wasDirty
              hold newId (.internal bytes leftmost cells)
              return newId
      | .leaf => do
          let (node, wasDirty) <- takeNodeForWrite backing id
          match node with
          | .internal _ _ _ => refused (CowBTree.kindChanged id)
          | .leaf bytes entries => do
              let newId <- settleRemoval backing id wasDirty bytes
                (CowBTree.dropEntry bytes entries key)
              freeOverflowChain backing (valueOf bytes entries key)
              return newId

/-! ## The transaction's operations -/

def beginTxn (self : Writer) : Writer := { self with toCowBTree := self.toCowBTree.beginTxn }

/-- Make the outcome under the root the new root, one level up after a split. -/
def growRoot (backing : Backing) : CowBTree.InsertOutcome -> Writing Unit
  | .replaced id => Stateful.change fun self => { self with pendingRoot := id }
  | .split left right separator => do
      let id <- alloc backing
      hold id (.internal [] left [{ key := .owned separator, child := right }])
      Stateful.change fun self => { self with pendingRoot := id }

def put (backing : Backing) (key value : Bytes) : Writing Unit := do
  if ¬ CowBTree.keyFits (<- Stateful.gets (·.pageSize)) key then
    refused (.storage "key is too large for a page")
  else
    Stateful.change beginTxn
    let self <- Stateful.gets id
    let outcome <- insertInto backing key value self.depth self.pendingRoot
    growRoot backing outcome
    Stateful.change fun self =>
      { self with pendingOps := self.pendingOps.insert key (some value) }

def delete (backing : Backing) (key : Bytes) : Writing Unit := do
  Stateful.change beginTxn
  let self <- Stateful.gets id
  let newRoot <- deleteFrom backing key self.depth self.pendingRoot
  Stateful.change fun self =>
    { self with pendingRoot := newRoot, pendingOps := self.pendingOps.insert key none }

/-- One turn of the loop of `materialize_dirty`. -/
def materializePage (pageSize : Nat) : Nat × DirtyPage -> Writing Unit
  | (_, .encoded _) => pure ()
  | (id, .decoded node) => do
      let bytes <- ask fun _ => encodeNode pageSize node
      holdBytes id bytes

def materializeDirty : Writing Unit := do
  let self <- Stateful.gets id
  self.dirty.toList.forM (materializePage self.pageSize)

/-- The bookkeeping rows of one turn of `finalize_free_list`. -/
def writeRows (backing : Backing) (seq : Nat) (freed : Option Nat)
    (consumed : Option (Nat × Nat)) : Writing Unit := do
  match freed with
  | some id => put backing (freeListKey seq id) []
  | none => pure ()
  match consumed with
  | some (freedAt, id) => delete backing (freeListKey freedAt id)
  | none => pure ()

/-- Pop a page to note and a row to delete. -/
def popNotes : Writing (Option Nat × Option (Nat × Nat)) := fun self =>
  (.ok (self.freedThisTxn.head?, self.consumedThisTxn.head?), { self with
    freedThisTxn := self.freedThisTxn.tail, consumedThisTxn := self.consumedThisTxn.tail })

/-- What `finalize_free_list` gives up with. -/
def notConverged : Writing Unit := do
  let self <- Stateful.gets id
  let freed := self.freedThisTxn.length
  let consumed := self.consumedThisTxn.length
  refused (.storage (s!"finalize_free_list did not converge after 100001 iterations " ++
    s!"(freed_this_txn={freed}, consumed_this_txn={consumed}) — probable free-list bug"))

/-- The loop of `finalize_free_list`: write rows while there are pages to note, for so many
turns. -/
def finalizeLoop (backing : Backing) (seq : Nat) : Nat -> Writing Unit
  | 0 => do
      let (freed, consumed) <- popNotes
      if freed = none ∧ consumed = none then pure () else notConverged
  | turns + 1 => do
      let (freed, consumed) <- popNotes
      if freed = none ∧ consumed = none then pure ()
      else do
        writeRows backing seq freed consumed
        finalizeLoop backing seq turns

def finalizeFreeList (backing : Backing) (seq : Nat) : Writing Unit :=
  finalizeLoop backing seq 100000

end Writer

end InlaySql.Btree
