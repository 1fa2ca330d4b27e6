import InlaySql.Sql.Engine

/-!
# Indexes beside the rows

The entries a row contributes to the scalar indexes of its table, which are stored with
the row, and the documents it contributes to the retrieval indexes, which live in memory:
how they are restored, kept current and saved.
-/

namespace InlaySql.Sql

open Lib
open Stateful

def Index.retrievalKey (self : Index) : RetrievalKey :=
  ⟨self.kind, lower self.table, self.columns.map lower⟩

def IndexKind.isRetrieval : IndexKind -> Bool
  | .btree => false
  | .fullText | .vector => true

/-- The index declarations one statement maintains. -/
structure RowIndexes where
  btree : List Index
  retrieval : List Index

/-- `RowIndexes::resolve`. -/
def RowIndexes.resolve (catalog : Catalog) (table : String) : RowIndexes where
  btree := (catalog.indexesFor table).filter (·.kind == .btree)
  retrieval := (catalog.indexesFor table).filter (·.kind.isRetrieval)

/-- `btree_entry_keys`: every key is built before any is written. -/
def btreeEntryKeys (table : Table) (indexes : RowIndexes) (id : RowId) (row : Row) :
    Except Error (List Bytes) :=
  indexes.btree.mapM fun index => do
    entryKey index.name (<- indexValues table index row) index.collations id

/-- The text of one column, if it holds text. -/
def columnText (table : Table) (row : Row) (column : String) : Except Error (List String) := do
  let (ordinal, _) <- table.requireColumn column
  match row[ordinal]? with
  | some (.text text) => return [text]
  | _ => return []

def concatenatedFullText (table : Table) (columns : List String) (row : Row) :
    Except Error (Option String) := do
  let parts := (<- columns.mapM (columnText table row)).flatten
  return if parts.isEmpty then none else some (" ".intercalate parts)

/-- What a row contributes to a retrieval index, if anything. -/
def documentOf (table : Table) (index : Index) (row : Row) : Except Error (Option Document) :=
  match index.kind with
  | .fullText => do return (<- concatenatedFullText table index.columns row).map .text
  | .vector => do
      let (ordinal, _) <- table.requireColumn index.column
      match row[ordinal]? with
      | some (.vector lanes) => return some (.vector lanes)
      | _ => return none
  | .btree => .ok none

namespace Engine

/-- Change the documents of one backend, if it is open. -/
def setBackend (key : RetrievalKey) (update : Documents -> Documents) : Method Unit :=
  change fun engine => { engine with
    retrieval := Function.update engine.retrieval key ((engine.retrieval key).map update) }

def markIndexesDirty (table : String) : Method Unit :=
  change fun engine => { engine with
    dirtyTables :=
      if engine.dirtyTables.contains (lower table) then engine.dirtyTables
      else engine.dirtyTables ++ [lower table] }

def indexRowForIndex (table : Table) (id : RowId) (row : Row) (index : Index) : Method Unit := do
  match <- ofExcept (documentOf table index row) with
  | some document =>
    setBackend index.retrievalKey fun documents => Function.update documents id (some document)
  | none => pure ()

def deindexRowForIndex (table : Table) (id : RowId) (row : Row) (index : Index) : Method Unit := do
  match <- ofExcept (documentOf table index row) with
  | some _ => setBackend index.retrievalKey fun documents => Function.update documents id none
  | none => pure ()

def indexRowRetrieval (table : Table) (indexes : RowIndexes) (id : RowId) (row : Row) :
    Method Unit := do
  markIndexesDirty table.name
  indexes.retrieval.forM (indexRowForIndex table id row)

def deindexRowRetrieval (table : Table) (indexes : RowIndexes) (id : RowId) (row : Row) :
    Method Unit := do
  markIndexesDirty table.name
  indexes.retrieval.forM (deindexRowForIndex table id row)

def writeBtreeEntries (table : Table) (indexes : RowIndexes) (id : RowId) (row : Row) :
    Method Unit := do
  let keys <- ofExcept (btreeEntryKeys table indexes id row)
  keys.forM fun key => write (·.putIndexEntry key)

def removeBtreeEntries (table : Table) (indexes : RowIndexes) (id : RowId) (row : Row) :
    Method Unit := do
  let keys <- ofExcept (btreeEntryKeys table indexes id row)
  keys.forM fun key => write (·.deleteIndexEntry key)

def indexRow (table : Table) (indexes : RowIndexes) (id : RowId) (row : Row) : Method Unit := do
  writeBtreeEntries table indexes id row
  indexRowRetrieval table indexes id row

/-! ## Saved copies -/

end Engine

/-- `IndexHeader`: the write version a saved index reflects, and how to reassemble it. -/
structure IndexHeader where
  version : Nat
  chunks : Nat
  length : Nat
  deriving DecidableEq, Repr

namespace IndexHeader

def encode (self : IndexHeader) : Bytes :=
  leBytes 8 self.version ++ leBytes 8 self.chunks ++ leBytes 8 self.length

def decode (bytes : Bytes) : Option IndexHeader :=
  if bytes.length = 24 then
    some ⟨ofLe (bytes.take 8), ofLe ((bytes.drop 8).take 8), ofLe ((bytes.drop 16).take 8)⟩
  else none

end IndexHeader

def indexChunkBytes : Nat := 2048
def indexCommitBytes : Nat := 64 * 1024
def indexPersistInterval : Nat := 1024

/-- The bytes of a metadata value. -/
def Storage.metaBytes (storage : Storage) (name : String) : Option Bytes :=
  match storage.getMeta name with
  | some (.bytes bytes) => some bytes
  | _ => none

/-- `read_saved_index`: `none` unless a complete copy of the current version is there. -/
def readSavedIndex (storage : Storage) (writeVersion : Nat) (index : Index) : Option Bytes := do
  let base := indexMetaKeyFor index.table index.columns
  let header <- IndexHeader.decode (<- storage.metaBytes base)
  if header.version ≠ writeVersion then none
  else
    let payload := (<- (List.range header.chunks).mapM fun chunk =>
      storage.metaBytes (indexChunkKey base chunk)).flatten
    if payload.length ≠ header.length then none else some payload

namespace Engine

/-- `open_indexes_for`: an empty backend for each retrieval index of the table. -/
def openIndexesFor (table : String) : Method Unit :=
  change fun engine => { engine with
    retrieval := fun key =>
      if (RowIndexes.resolve engine.catalog table).retrieval.any (·.retrievalKey == key) then
        some fun _ => none
      else engine.retrieval key }

/-- The saved copies of a table's retrieval indexes, decoded: all of them, or none. -/
def savedDocuments (host : Host) (engine : Engine) (table : String) :
    Option (List (RetrievalKey × Documents)) :=
  (RowIndexes.resolve engine.catalog table).retrieval.mapM fun index => do
    let payload <- readSavedIndex engine.storage engine.writeVersion index
    return (index.retrievalKey, <- host.loadIndex index.kind payload)

/-- `load_saved_indexes`: whether every index of the table was restored. -/
def loadSavedIndexes (host : Host) (table : String) : Method Bool := do
  match <- gets fun engine => engine.savedDocuments host table with
  | some restored => do
      restored.forM fun (key, documents) => setBackend key fun _ => documents
      return true
  | none => return false

/-- One table of `restore_indexes`: from the saved copies, or from the rows. -/
def restoreTable (host : Host) (table : Table) : Method Unit := do
  openIndexesFor table.name
  if <- loadSavedIndexes host table.name then pure ()
  else
    let indexes <- gets fun engine => RowIndexes.resolve engine.catalog table.name
    let rows <- gets fun engine => engine.storage.rows table.name
    rows.forM fun (id, row) => indexRowRetrieval table indexes id row

/-- The open retrieval backends. -/
def openBackends (engine : Engine) : List Index :=
  (engine.catalog.indexes.toList.map (·.2)).filter fun index =>
    index.kind.isRetrieval && (engine.retrieval index.retrievalKey).isSome

/-- Whether enough was committed since the indexes were last saved. -/
def savingIsDue (engine : Engine) : Bool :=
  !engine.inTransaction && indexPersistInterval ≤ engine.writeVersion - engine.persistedVersion

/-- `build_indexes` over everything, with what saves the indexes when that is due. A
backend in memory has nothing of its own to commit. -/
def buildIndexes (save : Method Unit) : Method Unit := do
  if <- gets (·.dirtyTables.isEmpty) then pure ()
  else
    let backends <- gets openBackends
    backends.forM fun _ => check
    change fun engine => { engine with dirtyTables := [] }
    if <- gets savingIsDue then save else pure ()

def restoreIndexes (host : Host) (save : Method Unit) : Method Unit := do
  let tables <- gets fun engine => engine.catalog.tables.toList.map (·.2)
  tables.forM (restoreTable host)
  change fun engine => { engine with indexedVersion := engine.writeVersion }
  buildIndexes save

/-- `reload`. The persisted version is set to the write version, so saving is not due. -/
def reload (host : Host) : Method Unit := do
  let catalog <- tryGets fun engine => storedCatalog engine.storage
  change fun engine => { engine with catalog := catalog.carryTempSchemaFrom engine.catalog }
  invalidateRules
  readCounters
  change fun engine => { engine with
    persistedVersion := engine.writeVersion
    retrieval := fun _ => none
    dirtyTables := []
    pendingChanges := [] }
  restoreIndexes host (pure ())

def commitStorage (host : Host) : Method Unit := do
  let predicted <- gets (·.writeVersion)
  match <- storageCommit.outcome with
  | .ok () => do
      readCounters
      change fun engine => { engine with
        indexedVersion :=
          if engine.writeVersion = predicted then engine.writeVersion
          else min engine.indexedVersion engine.writeVersion }
  | .error .conflict => do
      reload host
      fail .conflict
  | .error error => fail error

/-! ## Saving -/

def batchIsFull (host : Host) (engine : Engine) (pending : Nat) : Bool :=
  indexCommitBytes ≤ pending || host.nearlyFull engine.storage.main.ops

/-- Put one chunk, and commit when the batch is full. -/
def putBatched (host : Host) (pending : Nat) (chunk : String × Bytes × Nat) : Method Nat := do
  write (·.putMeta chunk.1 (.bytes chunk.2.1))
  let pending := pending + chunk.2.2
  if <- gets fun engine => engine.batchIsFull host pending then do
    commitStorage host
    return 0
  else return pending

/-- The chunks of a payload under their keys, and the keys the previous copy used beyond
them, blanked. -/
def chunkWrites (base : String) (bytes : Bytes) (previous : Nat) : List (String × Bytes × Nat) :=
  let chunks := bytes.toChunks indexChunkBytes
  (chunks.mapIdx fun number chunk => (indexChunkKey base number, chunk, chunk.length)) ++
    ((List.range' chunks.length (previous - chunks.length)).map fun number =>
      (indexChunkKey base number, [], indexChunkBytes))

/-- One index of `persist_indexes`: the header is blanked before the chunks are touched
and written after them. -/
def persistIndex (host : Host) (saved : String × Bytes) : Method Unit := do
  let previous <- gets fun engine =>
    (((engine.storage.metaBytes saved.1).bind IndexHeader.decode).map (·.chunks)).getD 0
  write (·.putMeta saved.1 (.bytes []))
  commitStorage host
  let _ <- (chunkWrites saved.1 saved.2 previous).foldlM (putBatched host) 0
  commitStorage host
  let version <- gets (·.writeVersion)
  let header : IndexHeader :=
    ⟨version, (saved.2.toChunks indexChunkBytes).length, saved.2.length⟩
  write (·.putMeta saved.1 (.bytes header.encode))
  commitStorage host

/-- What every open backend serialises to. -/
def savedBytes (host : Host) (engine : Engine) : List (String × Bytes) :=
  (engine.catalog.tables.toList.map (·.2)).flatMap fun table =>
    (RowIndexes.resolve engine.catalog table.name).retrieval.filterMap fun index => do
      let documents <- engine.retrieval index.retrievalKey
      return (indexMetaKeyFor index.table index.columns, <- host.saveIndex index.kind documents)

def persistIndexes (host : Host) : Method Unit := do
  let saved <- gets (·.savedBytes host)
  saved.forM (persistIndex host)
  change fun engine => { engine with persistedVersion := engine.writeVersion }

def refreshIndexes (host : Host) : Method Unit := buildIndexes (persistIndexes host)

end Engine

end InlaySql.Sql
