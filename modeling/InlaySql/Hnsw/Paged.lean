import InlaySql.Hnsw.Ledger

/-!
# The vector index kept in the database

The nodes are rows of a table, a live map says which of them each row has, and a batch waits in
memory with its embeddings. The store is the list of the records it holds, which a read sees as
soon as they are written; its cache, its header and the transaction the index joins do not
appear, since one handle reads back what it wrote.
-/

namespace InlaySql.Hnsw

open Lib Sql

structure PagedHnswIndex (S : Space) where
  dim : Nat
  graph : Graph S
  live : Std.ExtTreeMap RowId Nat
  tombstones : Nat
  pendingInserts : List (RowId × Embedding)
  pendingRemoves : List RowId
  params : HnswParams
  builtM : Nat
  builtEfConstruction : Nat

namespace PagedHnswIndex

variable {S : Space}

/-- `with_params`, over a fresh namespace. -/
def withParams (dim : Nat) (params : HnswParams) : PagedHnswIndex S :=
  ⟨dim, .empty S, ∅, 0, [], [], params, params.m, params.efConstruction⟩

def setParams (self : PagedHnswIndex S) (params : HnswParams) : PagedHnswIndex S :=
  { self with params }

def insert (self : PagedHnswIndex S) (id : RowId) (embedding : Embedding) :
    Except Error (PagedHnswIndex S) :=
  if embedding.length ≠ self.dim then
    .error (.type s!"embedding has dimension {embedding.length} but the index expects {self.dim}")
  else .ok { self with pendingInserts := self.pendingInserts ++ [(id, embedding)] }

def remove (self : PagedHnswIndex S) (id : RowId) : PagedHnswIndex S :=
  { self with pendingRemoves := self.pendingRemoves ++ [id] }

/-- `insert_node`. The first node is stored as record 0, whatever records there are. -/
def insertNode (self : PagedHnswIndex S) (id : RowId) (vector : S.Vector) (level : Nat) :
    Except Error (PagedHnswIndex S) :=
  match self.graph.entry with
  | none =>
    .ok { self with
      graph := ⟨[Node.new id vector level], some 0, level⟩
      live := self.live.insert id 0 }
  | some _ => do
      let (graph, index) <- self.graph.insertNode self.params id vector level
      return { self with graph, live := self.live.insert id index }

def tombstone (self : PagedHnswIndex S) (index : Nat) : PagedHnswIndex S :=
  match self.graph.nodes[index]? with
  | none => self
  | some node =>
    if node.deleted then self
    else { self with
      graph := self.graph.mark index
      tombstones := self.tombstones + 1
      live := self.live.erase node.id }

/-! ## Rebuilding -/

/-- A stored record that is not deleted. -/
def keepRecord (live : Std.ExtTreeMap RowId S.Vector) (record : Node S.Vector) :
    Std.ExtTreeMap RowId S.Vector :=
  if record.deleted then live else live.insert record.id record.vector

/-- The rows a rebuild starts from: those stored, less the removals, and the insertions. -/
def finalRows (self : PagedHnswIndex S) : Std.ExtTreeMap RowId S.Vector :=
  self.pendingInserts.foldl (fun live row => live.insert row.1 (S.stored row.2))
    (self.pendingRemoves.foldl (fun live id => live.erase id)
      (self.graph.nodes.foldl keepRecord ∅))

def build (self : PagedHnswIndex S) : Except Error (PagedHnswIndex S) :=
  let rows := self.finalRows
  let shift := levelShift self.params.m
  let ceiling := maxLevelFor rows.size self.params.m
  rows.toList.foldlM (fun index row => index.insertNode row.1 row.2 (levelOf row.1 shift ceiling))
    { self with
      graph := .empty S
      live := ∅
      tombstones := 0
      builtM := self.params.m
      builtEfConstruction := self.params.efConstruction }

/-! ## Committing -/

/-- One removal of the batch. -/
def applyRemove (self : PagedHnswIndex S) (id : RowId) : PagedHnswIndex S :=
  match self.live[id]? with
  | some index => self.tombstone index
  | none => self

/-- One insertion of the batch; the node the row had is retired. -/
def applyInsert (shift ceiling : Nat) (self : PagedHnswIndex S) (row : RowId × Embedding) :
    Except Error (PagedHnswIndex S) :=
  (self.applyRemove row.1).insertNode row.1 (S.stored row.2) (levelOf row.1 shift ceiling)

def repair (self : PagedHnswIndex S) : Except Error (PagedHnswIndex S) :=
  if self.graph.nodes.length ≤ self.tombstones * 2 then self.build
  else
    match self.graph.entry.bind fun entry => self.graph.nodes[entry]? with
    | none => .ok self
    | some node => .ok (if node.deleted then { self with graph := self.graph.repickEntry } else self)

def commit (self : PagedHnswIndex S) : Except Error (PagedHnswIndex S) := do
  let reshaped := self.params.m ≠ self.builtM ∨
    self.params.efConstruction ≠ self.builtEfConstruction
  let pending := self.pendingInserts ≠ [] ∨ self.pendingRemoves ≠ []
  if ¬pending ∧ ¬reshaped then return self
  else if self.graph.nodes = [] ∨ reshaped then
    let built <- self.build
    return { built with pendingInserts := [], pendingRemoves := [] }
  else
    let removed := self.pendingRemoves.foldl applyRemove { self with pendingRemoves := [] }
    let shift := levelShift self.params.m
    let ceiling := maxLevelFor (removed.live.size + removed.pendingInserts.length) self.params.m
    let inserted <- removed.pendingInserts.foldlM (applyInsert shift ceiling)
      { removed with pendingInserts := [] }
    inserted.repair

/-! ## Searching -/

def searchWithEf (self : PagedHnswIndex S) (query : Embedding) (k ef : Nat)
    (filter : Option RowFilter) : Except Error (List Scored) :=
  if query.length ≠ self.dim then
    .error (.type s!"query has dimension {query.length} but the index expects {self.dim}")
  else self.graph.search query k ef filter

def search (self : PagedHnswIndex S) (query : Embedding) (k : Nat) (filter : Option RowFilter) :
    Except Error (List Scored) :=
  self.searchWithEf query k (self.params.efFor k) filter

end PagedHnswIndex

end InlaySql.Hnsw
