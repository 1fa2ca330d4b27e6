import InlaySql.Lib.Tombstones
import InlaySql.Sql.Value

/-!
# The graph of a vector index

A node is a row's prepared vector and its links, layer by layer. A row joins the graph by a
greedy walk from the entry point, and leaves it by being marked deleted: walks still pass
through it, answers leave it out. What a vector is, how it is prepared and how far two are
apart are `f32` arithmetic and stay parameters; a distance is an `f32`, given as bits.
-/

namespace InlaySql.Hnsw

open Lib Sql

/-- An embedding as the caller hands it over: its `f32` components, given as bits. -/
abbrev Embedding := List UInt32

/-- The representation and the metric of one index. -/
structure Space where
  Vector : Type
  /-- `StoredVector::from_f32(..).prepared(..)`, as the index in memory keeps it. -/
  prepared : Embedding -> Vector
  /-- `StoredVector::from_f32(&metric.prepare(..))`, as the paged index keeps it. -/
  stored : Embedding -> Vector
  /-- `StoredVector::Exact(metric.prepare(..))`, of a query. -/
  query : Embedding -> Vector
  /-- `stored_distance`. -/
  distance : Vector -> Vector -> UInt32
  /-- `>` of two `f32`. -/
  exceeds : UInt32 -> UInt32 -> Bool
  /-- `f32::total_cmp`. -/
  compare : UInt32 -> UInt32 -> Ordering
  score : UInt32 -> UInt32
  /-- The bytes `encode_stored_vector` writes of a vector of this dimension. -/
  storedBytes : Nat -> Nat

structure HnswParams where
  m : Nat
  efConstruction : Nat
  efSearch : Nat
  efSearchMultiplier : Nat
  deriving DecidableEq, Repr

namespace HnswParams

def defaults : HnswParams := ⟨16, 200, 64, 2⟩

/-- `usize::saturating_mul`. -/
def saturatingMul (left right : Nat) : Nat := min (left * right) (2 ^ 64 - 1)

def degree (self : HnswParams) (layer : Nat) : Nat :=
  if layer = 0 then saturatingMul self.m 2 else self.m

def efFor (self : HnswParams) (k : Nat) : Nat :=
  max (max (max self.efSearch (saturatingMul k self.efSearchMultiplier)) k) 1

end HnswParams

/-! ## Layers -/

def maxLevel : Nat := 12

def mix64 (id : UInt64) : UInt64 :=
  let x := id ^^^ (id >>> 33)
  let x := x * 0xff51afd7ed558ccd
  let x := x ^^^ (x >>> 33)
  let x := x * 0xc4ceb9fe1a85ec53
  x ^^^ (x >>> 33)

def trailingZeros (x : UInt64) : Nat :=
  ((List.range 64).find? x.toNat.testBit).getD 64

def levelOf (id : RowId) (shift ceiling : Nat) : Nat :=
  min (trailingZeros (mix64 (UInt64.ofNat id)) / shift) ceiling

def levelShift (m : Nat) : Nat := (max m 2).log2

/-- The loop of `max_level_for`, over the layers that are left. -/
def climb (count m : Nat) : Nat -> Nat -> Nat -> Nat
  | 0, level, _ => level
  | left + 1, level, reach =>
    if reach < count then climb count m left (level + 1) (HnswParams.saturatingMul reach m)
    else level

def maxLevelFor (count m : Nat) : Nat := climb count (max m 2) maxLevel 0 (max m 2)

/-! ## Nodes -/

structure Node (V : Type) where
  id : RowId
  vector : V
  neighbors : List (List Nat)
  deleted : Bool

namespace Node

variable {V : Type}

def new (id : RowId) (vector : V) (level : Nat) : Node V :=
  ⟨id, vector, List.replicate (level + 1) [], false⟩

/-- The node without its links. -/
def entry (self : Node V) : Entry RowId V := ⟨self.id, self.vector, self.deleted⟩

def setLayer (self : Node V) (layer : Nat) (links : List Nat) : Node V :=
  { self with neighbors := self.neighbors.set layer links }

def layer (self : Node V) (layer : Nat) : List Nat := (self.neighbors[layer]?).getD []

end Node

def neighborsAt {V : Type} (nodes : List (Node V)) (node layer : Nat) : List Nat :=
  ((nodes[node]?).map (·.layer layer)).getD []

structure Candidate where
  distance : UInt32
  node : Nat
  deriving DecidableEq, Repr

variable (S : Space)

def Candidate.compare (left right : Candidate) : Ordering :=
  (S.compare left.distance right.distance).then (Ord.compare left.node right.node)

/-! ## Walking a layer -/

/-- A walk: the nodes seen, those still to expand, and the best found. -/
structure Walk where
  seen : List Bool
  frontier : List Candidate
  results : List Candidate
  deriving DecidableEq, Repr

/-- The farthest of some candidates. -/
def farthest (candidates : List Candidate) : Option Candidate :=
  candidates.foldl (fun worst candidate =>
    match worst with
    | none => some candidate
    | some kept => some (if (kept.compare S candidate).isLT then candidate else kept)) none

/-- The nearest of some candidates, and the others. -/
def popNearest (candidates : List Candidate) : Option (Candidate × List Candidate) :=
  match candidates with
  | [] => none
  | first :: rest =>
    let nearest := rest.foldl (fun kept candidate =>
      if (candidate.compare S kept).isLT then candidate else kept) first
    some (nearest, candidates.erase nearest)

namespace Walk

/-- A candidate is held among the results, which never grow past the beam. -/
def hold (self : Walk) (ef : Nat) (candidate : Candidate) : Walk :=
  let results := candidate :: self.results
  if ef < results.length then
    { self with results := ((farthest S results).map results.erase).getD results }
  else { self with results }

/-- Whether a candidate is near enough to be expanded. -/
def enters (self : Walk) (ef : Nat) (candidate : Candidate) : Bool :=
  match farthest S self.results with
  | none => true
  | some worst =>
    self.results.length < ef || S.exceeds worst.distance candidate.distance

/-- One link of the node being expanded. A link to a node there is none of is passed over:
the source never makes one. -/
def follow (nodes : List (Node S.Vector)) (query : S.Vector) (ef : Nat)
    (admits : Node S.Vector -> Except Error Bool) (self : Walk) (neighbor : Nat) :
    Except Error Walk :=
  match nodes[neighbor]?, self.seen[neighbor]? with
  | some node, some false =>
    let candidate : Candidate := ⟨S.distance query node.vector, neighbor⟩
    let walk := { self with seen := self.seen.set neighbor true }
    if walk.enters S ef candidate then do
      let walk := { walk with frontier := candidate :: walk.frontier }
      return if <- admits node then walk.hold S ef candidate else walk
    else .ok walk
  | _, _ => .ok self

/-- The beam is full and the nearest node left is farther than what it holds. -/
def finished (self : Walk) (ef : Nat) (current : Candidate) : Bool :=
  match farthest S self.results with
  | none => false
  | some worst => ef ≤ self.results.length && S.exceeds current.distance worst.distance

/-- The loop of `search_layer`. Each step takes a node off the frontier, and a node enters the
frontier once: as many steps as there are nodes, and one to see the frontier empty, suffice. -/
def run (nodes : List (Node S.Vector)) (query : S.Vector) (ef layer : Nat)
    (admits : Node S.Vector -> Except Error Bool) : Nat -> Walk -> Except Error Walk
  | 0, walk => .ok walk
  | steps + 1, walk =>
    match popNearest S walk.frontier with
    | none => .ok walk
    | some (current, frontier) =>
      if walk.finished S ef current then .ok walk
      else do
        let walk <- (neighborsAt nodes current.node layer).foldlM
          (follow S nodes query ef admits) { walk with frontier }
        run nodes query ef layer admits steps walk

end Walk

/-- A row filter, which may fail. -/
abbrev RowFilter := RowId -> Except Error Bool

/-- Whether a node may be an answer. -/
def admits {V : Type} (filter : Option RowFilter) (node : Node V) : Except Error Bool :=
  match filter with
  | none => .ok true
  | some filter => if node.deleted then .ok false else filter node.id

/-- `search_layer`, from a node of the graph. -/
def searchLayer (nodes : List (Node S.Vector)) (query : S.Vector) (entry ef layer : Nat)
    (filter : Option RowFilter) : Except Error (List Candidate) :=
  match nodes[entry]? with
  | none => .ok []
  | some node => do
      let ef := max ef 1
      let start : Candidate := ⟨S.distance query node.vector, entry⟩
      let admitted <- admits filter node
      let walk <- Walk.run S nodes query ef layer (admits filter) (nodes.length + 1)
        ⟨(List.replicate nodes.length false).set entry true, [start],
          if admitted then [start] else []⟩
      return walk.results.mergeSort fun left right => (left.compare S right).isLE

/-! ## Linking -/

/-- `select_neighbors`: what is nearer to the node than to any link kept before it. -/
def selectDiverse (nodes : List (Node S.Vector)) (degree : Nat) (selected : List Nat)
    (candidate : Candidate) : List Nat :=
  if degree ≤ selected.length then selected
  else
    let diverse := selected.all fun kept =>
      match nodes[candidate.node]?, nodes[kept]? with
      | some node, some other => S.exceeds (S.distance node.vector other.vector) candidate.distance
      | _, _ => true
    if diverse then selected ++ [candidate.node] else selected

/-- The nearest candidates that were rejected make up the difference. -/
def fillUp (degree : Nat) (selected : List Nat) (candidate : Candidate) : List Nat :=
  if degree ≤ selected.length || selected.contains candidate.node then selected
  else selected ++ [candidate.node]

def selectNeighbors (nodes : List (Node S.Vector)) (candidates : List Candidate) (degree : Nat) :
    List Nat :=
  candidates.foldl (fillUp degree) (candidates.foldl (selectDiverse S nodes degree) [])

/-- `link_back`: the reverse edge, pruned back to the degree. -/
def linkBack (newIndex layer degree : Nat) (nodes : List (Node S.Vector)) (neighbor : Nat) :
    List (Node S.Vector) :=
  match nodes[neighbor]? with
  | none => nodes
  | some node =>
    let links := node.layer layer ++ [newIndex]
    if links.length ≤ degree then nodes.modify neighbor (·.setLayer layer links)
    else
      let candidates := links.filterMap fun other =>
        (nodes[other]?).map fun found =>
          (⟨S.distance node.vector found.vector, other⟩ : Candidate)
      let sorted := candidates.mergeSort fun left right => (left.compare S right).isLE
      nodes.modify neighbor (·.setLayer layer (selectNeighbors S nodes sorted degree))

/-- The node a walk found nearest. An unfiltered walk finds the node it starts at. -/
def nearestOr (entry : Nat) (found : List Candidate) : Nat :=
  (found.head?.map (·.node)).getD entry

/-- The descent to the layer of a new node: the layer to begin at, and the node. -/
def descend (nodes : List (Node S.Vector)) (vector : S.Vector) (level : Nat) :
    Nat -> Nat -> Except Error (Nat × Nat)
  | 0, entry => .ok (0, entry)
  | current + 1, entry =>
    if level < current + 1 then do
      let nearest <- searchLayer S nodes vector entry 1 (current + 1) none
      descend nodes vector level current (nearestOr entry nearest)
    else .ok (current + 1, entry)

/-- Connect a new node at one layer. -/
def connect (params : HnswParams) (vector : S.Vector) (newIndex : Nat)
    (state : List (Node S.Vector) × Nat) (layer : Nat) :
    Except Error (List (Node S.Vector) × Nat) := do
  let (nodes, entry) := state
  let candidates <- searchLayer S nodes vector entry params.efConstruction layer none
  let degree := params.degree layer
  let selected := selectNeighbors S nodes candidates degree
  let nodes := nodes.modify newIndex (·.setLayer layer selected)
  return (selected.foldl (linkBack S newIndex layer degree) nodes, nearestOr entry candidates)

/-! ## The graph -/

structure Graph where
  nodes : List (Node S.Vector)
  entry : Option Nat
  entryLevel : Nat

def Graph.empty : Graph S := ⟨[], none, 0⟩

variable {S}

/-- `insert_node`, with the index the node is claimed under. The paged index stores the new
node before it descends and the other one after; no walk sees it, since nothing links to it
yet. -/
def Graph.insertNode (self : Graph S) (params : HnswParams) (id : RowId) (vector : S.Vector)
    (level : Nat) : Except Error (Graph S × Nat) :=
  let new := Node.new id vector level
  match self.entry with
  | none => .ok (⟨self.nodes ++ [new], some 0, level⟩, 0)
  | some entry => do
      let (current, entry) <- descend S self.nodes vector level self.entryLevel entry
      let newIndex := self.nodes.length
      let (nodes, _) <- (List.range (current + 1)).reverse.foldlM
        (connect S params vector newIndex) (self.nodes ++ [new], entry)
      if self.entryLevel < level then return (⟨nodes, some newIndex, level⟩, newIndex)
      else return ({ self with nodes }, newIndex)

/-- Mark a node deleted. -/
def Graph.mark (self : Graph S) (index : Nat) : Graph S :=
  { self with nodes := self.nodes.modify index ({ · with deleted := true }) }

/-- The layer a node reaches. -/
def Node.level {V : Type} (self : Node V) : Nat := self.neighbors.length - 1

/-- The better entry point: a live node, and of a higher level than the one found before. -/
def better {V : Type} (best : Option (Nat × Node V)) (candidate : Node V × Nat) :
    Option (Nat × Node V) :=
  if candidate.1.deleted then best
  else match best with
    | none => some (candidate.2, candidate.1)
    | some current =>
      if current.2.level < candidate.1.level then some (candidate.2, candidate.1) else best

/-- The live node of the highest level, the first of them. -/
def bestEntry {V : Type} (nodes : List (Node V)) : Option (Nat × Node V) :=
  nodes.zipIdx.foldl better none

def Graph.repickEntry (self : Graph S) : Graph S :=
  match bestEntry self.nodes with
  | some best => { self with entry := some best.1, entryLevel := best.2.level }
  | none => { self with entry := none, entryLevel := 0 }

/-- One answer of a search. -/
structure Scored where
  id : RowId
  score : UInt32
  deriving DecidableEq, Repr

/-- The descent of a query to the lowest layer. -/
def descendTo (nodes : List (Node S.Vector)) (query : S.Vector) : Nat -> Nat -> Except Error Nat
  | 0, entry => .ok entry
  | layer + 1, entry => do
      let nearest <- searchLayer S nodes query entry 1 (layer + 1) none
      descendTo nodes query layer (nearestOr entry nearest)

/-- `search_with_ef`, of a query of the right dimension. -/
def Graph.search (self : Graph S) (query : Embedding) (k ef : Nat) (filter : Option RowFilter) :
    Except Error (List Scored) :=
  match self.entry with
  | none => .ok []
  | some entry =>
    if k = 0 then .ok []
    else do
      let query := S.query query
      let entry <- descendTo self.nodes query self.entryLevel entry
      let hits <- searchLayer S self.nodes query entry ef 0 filter
      let answers := hits.filterMap fun hit =>
        match self.nodes[hit.node]? with
        | some node => if node.deleted then none else some ⟨node.id, S.score hit.distance⟩
        | none => none
      return answers.take k

end InlaySql.Hnsw
