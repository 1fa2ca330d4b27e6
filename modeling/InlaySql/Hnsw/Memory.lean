import InlaySql.Hnsw.Ledger

/-!
# The vector index in memory

Rows are staged as they come and join the graph at a commit: all removals of the batch first,
then its insertions, each looked up in the row register again. The register says whether a
row's vector is staged or in the graph. A save writes the staged rows and the graph, a load
reads them back; what was pending is not written. Metric and encoding are the space the index
is of, so the checks of their tags are not here; lengths are written in 32 bits, and an index
of more nodes than that is not one a save can write.
-/

namespace InlaySql.Hnsw

open Lib Sql

variable (S : Space)

/-- Where a row's vector is. -/
inductive Held (V : Type) where
  | staged (vector : V)
  | graph

structure HnswIndex where
  dim : Nat
  rows : Std.ExtTreeMap RowId (Held S.Vector)
  graph : Graph S
  nodeIds : Std.ExtTreeMap RowId Nat
  tombstones : Nat
  pendingInserts : List RowId
  pendingRemoves : List RowId
  params : HnswParams
  builtM : Nat
  builtEfConstruction : Nat

/-- What a save writes. -/
structure Image where
  dim : Nat
  staged : List (RowId × S.Vector)
  nodes : List (Node S.Vector)
  entry : Option Nat
  entryLevel : Nat

variable {S}

/-- The bytes of a node. -/
def nodeBytes (vectorBytes : Nat) (node : Node S.Vector) : Nat :=
  1 + 8 + 4 + (node.neighbors.map fun layer => 4 + 4 * layer.length).sum + vectorBytes

/-- The bytes a save writes after the dimension. -/
def Image.size (image : Image S) : Nat :=
  let vectorBytes := S.storedBytes image.dim
  4 + image.staged.length * (8 + vectorBytes) + 4 +
    (image.nodes.map (nodeBytes vectorBytes)).sum + 1 + 4 + 4

namespace HnswIndex

def withParams (dim : Nat) (params : HnswParams) : HnswIndex S :=
  ⟨dim, ∅, .empty S, ∅, 0, [], [], params, params.m, params.efConstruction⟩

def setParams (self : HnswIndex S) (params : HnswParams) : HnswIndex S := { self with params }

def insert (self : HnswIndex S) (id : RowId) (embedding : Embedding) :
    Except Error (HnswIndex S) :=
  if embedding.length ≠ self.dim then
    .error (.type s!"embedding has dimension {embedding.length} but the index expects {self.dim}")
  else
    .ok { self with
      rows := self.rows.insert id (.staged (S.prepared embedding))
      pendingInserts := self.pendingInserts ++ [id] }

def remove (self : HnswIndex S) (id : RowId) : HnswIndex S :=
  { self with rows := self.rows.erase id, pendingRemoves := self.pendingRemoves ++ [id] }

/-- `insert_node`, and the `claim` it ends with. -/
def insertNode (self : HnswIndex S) (id : RowId) (vector : S.Vector) (level : Nat) :
    Except Error (HnswIndex S) := do
  let (graph, index) <- self.graph.insertNode self.params id vector level
  return { self with graph, nodeIds := self.nodeIds.insert id index, rows := self.rows.insert id .graph }

def tombstone (self : HnswIndex S) (index : Nat) : HnswIndex S :=
  match self.graph.nodes[index]? with
  | none => self
  | some node =>
    if node.deleted then self
    else { self with
      graph := self.graph.mark index
      tombstones := self.tombstones + 1
      nodeIds := self.nodeIds.erase node.id }

/-! ## Rebuilding -/

/-- A row takes its vector along: the staged one, or the one of its node, which no other row
takes. -/
def takeRow (nodeIds : Std.ExtTreeMap RowId Nat)
    (state : List (Option S.Vector) × List (RowId × S.Vector)) (row : RowId × Held S.Vector) :
    List (Option S.Vector) × List (RowId × S.Vector) :=
  match row.2 with
  | .staged vector => (state.1, state.2 ++ [(row.1, vector)])
  | .graph =>
    match nodeIds[row.1]? with
    | none => state
    | some index =>
      match state.1[index]? with
      | some (some vector) => (state.1.set index none, state.2 ++ [(row.1, vector)])
      | _ => state

/-- The rows a rebuild starts from, in the order of their ids. -/
def pendingRows (self : HnswIndex S) : List (RowId × S.Vector) :=
  (self.rows.toList.foldl (takeRow self.nodeIds)
    (self.graph.nodes.map fun node => some node.vector, [])).2

def build (self : HnswIndex S) : Except Error (HnswIndex S) :=
  let ceiling := maxLevelFor self.rows.size self.params.m
  let shift := levelShift self.params.m
  self.pendingRows.foldlM (fun index row => index.insertNode row.1 row.2 (levelOf row.1 shift ceiling))
    { self with
      rows := ∅
      graph := .empty S
      nodeIds := ∅
      tombstones := 0
      builtM := self.params.m
      builtEfConstruction := self.params.efConstruction }

/-! ## Committing -/

/-- One removal of the batch. -/
def applyRemove (self : HnswIndex S) (id : RowId) : HnswIndex S :=
  match self.nodeIds[id]? with
  | some index => self.tombstone index
  | none => self

/-- A row comes to rest in the graph; the node it had is retired. -/
def place (self : HnswIndex S) (id : RowId) (vector : S.Vector) (level : Nat) :
    Except Error (HnswIndex S) :=
  (applyRemove { self with rows := self.rows.erase id } id).insertNode id vector level

/-- One insertion of the batch. -/
def applyInsert (shift ceiling : Nat) (self : HnswIndex S) (id : RowId) :
    Except Error (HnswIndex S) :=
  match self.rows[id]? with
  | none => .ok self
  | some (.staged vector) => self.place id vector (levelOf id shift ceiling)
  | some .graph =>
    match (self.nodeIds[id]?).bind fun index => self.graph.nodes[index]? with
    | some node => self.place id node.vector (levelOf id shift ceiling)
    | none => .ok { self with rows := self.rows.erase id }

/-- The end of a batch: with half the nodes deleted the graph is rebuilt, and a deleted entry
point is replaced. -/
def repair (self : HnswIndex S) : Except Error (HnswIndex S) :=
  if self.graph.nodes.length ≤ self.tombstones * 2 then self.build
  else
    match self.graph.entry.bind fun entry => self.graph.nodes[entry]? with
    | none => .ok self
    | some node => .ok (if node.deleted then { self with graph := self.graph.repickEntry } else self)

def commit (self : HnswIndex S) : Except Error (HnswIndex S) := do
  let reshaped := self.params.m ≠ self.builtM ∨
    self.params.efConstruction ≠ self.builtEfConstruction
  let pending := self.pendingInserts ≠ [] ∨ self.pendingRemoves ≠ []
  if ¬pending ∧ ¬reshaped then return self
  else if self.graph.nodes = [] ∨ reshaped then
    let built <- self.build
    return { built with pendingInserts := [], pendingRemoves := [] }
  else
    let removed := self.pendingRemoves.foldl applyRemove { self with pendingRemoves := [] }
    let shift := levelShift self.params.m
    let ceiling := maxLevelFor removed.rows.size self.params.m
    let inserted <- removed.pendingInserts.foldlM (applyInsert shift ceiling)
      { removed with pendingInserts := [] }
    inserted.repair

/-! ## Saving and loading -/

/-- `save`. -/
def encode (self : HnswIndex S) : Image S where
  dim := self.dim
  staged := self.rows.toList.filterMap fun row =>
    match row.2 with
    | .staged vector => some (row.1, vector)
    | .graph => none
  nodes := self.graph.nodes
  entry := self.graph.entry
  entryLevel := if self.graph.entry.isSome then self.graph.entryLevel else 0

/-- A link that leads out of the graph: the node it is of, and where it leads. -/
def strayLink (nodes : List (Node S.Vector)) : Option (Nat × Nat) :=
  nodes.zipIdx.findSome? fun node =>
    (node.1.neighbors.flatten.find? fun link => nodes.length ≤ link).map (node.2, ·)

/-- A live node claims its row. -/
def claimNode (state : Std.ExtTreeMap RowId Nat × Nat) (node : Node S.Vector × Nat) :
    Except Error (Std.ExtTreeMap RowId Nat × Nat) :=
  if node.1.deleted then .ok (state.1, state.2 + 1)
  else if (state.1[node.1.id]?).isSome then
    .error (.corrupt s!"graph has two live nodes for row {node.1.id}")
  else .ok (state.1.insert node.1.id node.2, state.2)

def checkLinks (image : Image S) : Except Error Unit :=
  match strayLink image.nodes with
  | some (position, neighbor) =>
    .error (.corrupt s!"graph node {position} links to out-of-range node {neighbor}")
  | none => .ok ()

def checkEntry (image : Image S) : Except Error Unit :=
  match image.entry with
  | none => .ok ()
  | some entry =>
    match image.nodes[entry]? with
    | none =>
      .error (.corrupt
        s!"graph entry point {entry} is out of range ({image.nodes.length} nodes)")
    | some node =>
      if node.deleted then .error (.corrupt s!"graph entry point {entry} is a deleted node")
      else .ok ()

/-- `cursor.count(4)`, of the dimension. -/
def checkDimension (image : Image S) : Except Error Unit :=
  if image.size < image.dim * 4 then
    .error (.corrupt s!"declared {image.dim} item(s) but only {image.size} byte(s) remain")
  else .ok ()

/-- The row register of a graph that is read back, and of the rows staged beside it. -/
def registered (nodeIds : Std.ExtTreeMap RowId Nat) (staged : List (RowId × S.Vector)) :
    Std.ExtTreeMap RowId (Held S.Vector) :=
  staged.foldl (fun rows row =>
    if (nodeIds[row.1]?).isSome then rows else rows.insert row.1 (.staged row.2))
    (nodeIds.map fun _ _ => .graph)

/-- The index a decoded image makes, once its register is known. -/
def restored (image : Image S) (nodeIds : Std.ExtTreeMap RowId Nat) (tombstones : Nat) :
    HnswIndex S where
  dim := image.dim
  rows := registered nodeIds image.staged
  graph := ⟨image.nodes, image.entry, image.entryLevel⟩
  nodeIds := nodeIds
  tombstones := tombstones
  pendingInserts := []
  pendingRemoves := []
  params := .defaults
  builtM := HnswParams.defaults.m
  builtEfConstruction := HnswParams.defaults.efConstruction

/-- `decode`, of the format `encode` writes. -/
def decode (image : Image S) : Except Error (HnswIndex S) := do
  checkDimension image
  checkLinks image
  checkEntry image
  let (nodeIds, tombstones) <- image.nodes.zipIdx.foldlM claimNode (∅, 0)
  return restored image nodeIds tombstones

/-- `load`. Tuning is not part of the file: the caller's stays in force. -/
def load (self : HnswIndex S) (image : Image S) : Except Error (HnswIndex S) := do
  let restored <- decode image
  if restored.dim ≠ self.dim then
    .error (.corrupt (s!"persisted vector index has dimension {restored.dim} " ++
      s!"but the column declares {self.dim}"))
  else
    .ok { restored with
      params := self.params
      builtM := self.params.m
      builtEfConstruction := self.params.efConstruction }

/-! ## Searching -/

def searchWithEf (self : HnswIndex S) (query : Embedding) (k ef : Nat)
    (filter : Option RowFilter) : Except Error (List Scored) :=
  if query.length ≠ self.dim then
    .error (.type s!"query has dimension {query.length} but the index expects {self.dim}")
  else self.graph.search query k ef filter

def search (self : HnswIndex S) (query : Embedding) (k : Nat) (filter : Option RowFilter) :
    Except Error (List Scored) :=
  self.searchWithEf query k (self.params.efFor k) filter

end HnswIndex

end InlaySql.Hnsw
