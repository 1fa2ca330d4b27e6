import InlaySql.Hnsw.Complete
import InlaySql.Hnsw.Runs

/-!
# What pruning drops

Linking a new node back may push a list over its degree, and the list is pruned. Whether the
graph stays connected hangs on this alone: removals only mark nodes, and a rebuild inserts them
again. In a run whose insertions leave a way round each link they drop, no search under a
selective filter misses a row. Rows of one embedding show that pruning need not leave one: of
equal candidates the earliest are kept, so a late row loses every link to it.
-/

namespace InlaySql.Hnsw

open List Lib Sql Relation

/-- A node has joined, and each link that pruning has dropped has a way round: those there were,
and those back to the new node from what it links to. -/
structure Spares {V : Type} (before after : List (Node V)) : Prop where
  kept : ∀ node link, Links before 0 node link -> ¬Links after 0 node link ->
    ReflTransGen (Links after 0) node link
  back : ∀ link, Links after 0 before.length link -> ¬Links after 0 link before.length ->
    ReflTransGen (Links after 0) link before.length

theorem Spares.connected {V : Type} {before after : List (Node V)} (spares : Spares before after)
    (connected : Connected before) (longer : after.length = before.length + 1)
    (joins : before ≠ [] -> ∃ link < before.length, Links after 0 before.length link) :
    Connected after := by
  have detours (node link : Nat) (linked : Links before 0 node link) :
      ReflTransGen (Links after 0) node link := by
    by_cases still : Links after 0 node link
    · exact .single still
    · exact spares.kept node link linked still
  rcases eq_nil_or_concat before with rfl | ⟨others, last, nonempty⟩
  · intro node isNode other isOther
    rw [longer] at isNode isOther
    obtain rfl : node = other := by simp at isNode isOther; omega
    exact .refl
  · obtain ⟨first, isFirst, joined⟩ := joins (by simp [nonempty])
    have back : ReflTransGen (Links after 0) first before.length := by
      by_cases still : Links after 0 first before.length
      · exact .single still
      · exact spares.back first joined still
    have all := connected.join detours isFirst joined back
    intro node isNode other isOther
    exact all node (by omega) other (by omega)

namespace HnswIndex

variable {S : Space} {index next : HnswIndex S} {params : HnswParams}

/-! ## The insertions of a commit -/

def SparesInsert (index : HnswIndex S) (id : RowId) (vector : S.Vector) (level : Nat) : Prop :=
  ∀ next, index.insertNode id vector level = .ok next -> Spares index.graph.nodes next.graph.nodes

/-- The index a rebuild starts from. -/
def cleared (index : HnswIndex S) : HnswIndex S :=
  { index with
    rows := ∅
    graph := .empty S
    nodeIds := ∅
    tombstones := 0
    builtM := index.params.m
    builtEfConstruction := index.params.efConstruction }

def SparesBuild (index : HnswIndex S) : Prop :=
  let ceiling := maxLevelFor index.rows.size index.params.m
  let shift := levelShift index.params.m
  Throughout (fun index row => index.insertNode row.1 row.2 (levelOf row.1 shift ceiling))
    (fun index row => index.SparesInsert row.1 row.2 (levelOf row.1 shift ceiling))
    index.cleared index.pendingRows

def SparesPlace (index : HnswIndex S) (id : RowId) (vector : S.Vector) (level : Nat) : Prop :=
  (applyRemove { index with rows := index.rows.erase id } id).SparesInsert id vector level

def SparesApply (shift ceiling : Nat) (index : HnswIndex S) (id : RowId) : Prop :=
  match index.rows[id]? with
  | none => True
  | some (.staged vector) => index.SparesPlace id vector (levelOf id shift ceiling)
  | some .graph =>
    match (index.nodeIds[id]?).bind fun position => index.graph.nodes[position]? with
    | some node => index.SparesPlace id node.vector (levelOf id shift ceiling)
    | none => True

/-- Every insertion a commit makes leaves a way round each link it drops. -/
def SparesCommit (index : HnswIndex S) : Prop :=
  let reshaped := index.params.m ≠ index.builtM ∨
    index.params.efConstruction ≠ index.builtEfConstruction
  let pending := index.pendingInserts ≠ [] ∨ index.pendingRemoves ≠ []
  if ¬pending ∧ ¬reshaped then True
  else if index.graph.nodes = [] ∨ reshaped then index.SparesBuild
  else
    let removed := index.pendingRemoves.foldl applyRemove { index with pendingRemoves := [] }
    let shift := levelShift index.params.m
    let ceiling := maxLevelFor removed.rows.size index.params.m
    Throughout (applyInsert shift ceiling) (SparesApply shift ceiling)
        { removed with pendingInserts := [] } removed.pendingInserts ∧
      ∀ inserted, removed.pendingInserts.foldlM (applyInsert shift ceiling)
        { removed with pendingInserts := [] } = .ok inserted ->
          inserted.graph.nodes.length ≤ inserted.tombstones * 2 -> inserted.SparesBuild

/-! ## They keep it connected -/

/-- A graph that is sound and connected, under these parameters. -/
structure Whole (params : HnswParams) (index : HnswIndex S) : Prop where
  params : index.params = params
  sound : index.graph.Sound
  connected : Connected index.graph.nodes

variable {id : RowId} {vector : S.Vector}

theorem Whole.insertNode (positive : 0 < params.degree 0) (whole : index.Whole params)
    {level : Nat} (spares : index.SparesInsert id vector level)
    (inserted : index.insertNode id vector level = .ok next) : next.Whole params := by
  obtain ⟨sameParams, sound, connected⟩ := whole
  have spared := spares next inserted
  obtain ⟨grown, isGrown, entries, soundGrown⟩ := sound.insertNode index.params id vector level
  rw [HnswIndex.insertNode, isGrown] at inserted
  cases inserted
  have longer : grown.nodes.length = index.graph.nodes.length + 1 := by
    simpa using congrArg List.length entries
  refine ⟨sameParams, soundGrown, spared.connected connected longer fun nonempty => ?_⟩
  rw [sameParams] at isGrown
  exact sound.insertNode_joins positive nonempty isGrown

theorem Whole.applyRemove (whole : index.Whole params) (id : RowId) :
    (index.applyRemove id).Whole params := by
  unfold HnswIndex.applyRemove
  split
  · rename_i position _
    unfold HnswIndex.tombstone
    split
    · exact whole
    · split
      · exact whole
      · refine ⟨whole.params, whole.sound.mark position, ?_⟩
        have links : Links (index.graph.mark position).nodes 0 = Links index.graph.nodes 0 := by
          funext node link
          rw [Links, Links, neighborsAt_mark]
        have longs : (index.graph.mark position).nodes.length = index.graph.nodes.length := by
          simp [Graph.mark]
        unfold Connected
        rw [links, longs]
        exact whole.connected
  · exact whole

theorem Whole.foldl_applyRemove (whole : index.Whole params) (removes : List RowId) :
    (removes.foldl HnswIndex.applyRemove index).Whole params := by
  induction removes generalizing index with
  | nil => exact whole
  | cons id removes ih => exact ih (whole.applyRemove id)

section

variable (positive : 0 < params.degree 0)

include positive

theorem Whole.place (whole : index.Whole params) {level : Nat}
    (spares : index.SparesPlace id vector level) (placed : index.place id vector level = .ok next) :
    next.Whole params := by
  have erased : Whole params { index with rows := index.rows.erase id } :=
    ⟨whole.params, whole.sound, whole.connected⟩
  exact (erased.applyRemove id).insertNode positive spares placed

theorem Whole.applyInsert {shift ceiling : Nat} (whole : index.Whole params)
    (spares : SparesApply shift ceiling index id)
    (applied : applyInsert shift ceiling index id = .ok next) : next.Whole params := by
  unfold HnswIndex.applyInsert at applied
  unfold SparesApply at spares
  split at applied
  · cases applied
    exact whole
  · rename_i isStaged
    rw [isStaged] at spares
    exact whole.place positive spares applied
  · rename_i isGraph
    rw [isGraph] at spares
    split at applied
    · rename_i isNode
      rw [isNode] at spares
      exact whole.place positive spares applied
    · cases applied
      exact ⟨whole.params, whole.sound, whole.connected⟩

theorem Whole.build (sameParams : index.params = params) (spares : index.SparesBuild)
    (built : index.build = .ok next) : next.Whole params := by
  have empty : index.cleared.Whole params := by
    refine ⟨sameParams, Graph.sound_empty, fun node isNode => ?_⟩
    simp [cleared, Graph.empty] at isNode
  exact spares.keeps (Whole params)
    (fun _ _ _ whole spared inserted => whole.insertNode positive spared inserted) empty built

theorem Whole.repair (whole : index.Whole params)
    (spares : index.graph.nodes.length ≤ index.tombstones * 2 -> index.SparesBuild)
    (repaired : index.repair = .ok next) : Connected next.graph.nodes := by
  unfold HnswIndex.repair at repaired
  split at repaired
  · rename_i half
    exact (Whole.build positive whole.params (spares half) repaired).connected
  · split at repaired
    · cases repaired
      exact whole.connected
    · cases repaired
      split
      · unfold Graph.repickEntry
        split
        · exact whole.connected
        · exact whole.connected
      · exact whole.connected

theorem Whole.commit (whole : index.Whole params) (spares : index.SparesCommit)
    (committed : index.commit = .ok next) :
    Connected next.graph.nodes := by
  unfold HnswIndex.commit at committed
  unfold SparesCommit at spares
  dsimp only at committed spares
  split at committed
  · cases committed
    exact whole.connected
  · rename_i waits
    rw [if_neg waits] at spares
    split at committed
    · rename_i rebuilds
      rw [if_pos rebuilds] at spares
      obtain ⟨built, isBuilt, made⟩ := bind_eq_ok committed
      cases made
      exact (Whole.build positive whole.params spares isBuilt).connected
    · rename_i adds
      rw [if_neg adds] at spares
      obtain ⟨inserted, isInserted, repaired⟩ := bind_eq_ok committed
      have taken : Whole params { index with pendingRemoves := [] } :=
        ⟨whole.params, whole.sound, whole.connected⟩
      have removed := taken.foldl_applyRemove index.pendingRemoves
      have emptied : Whole params { index.pendingRemoves.foldl HnswIndex.applyRemove
          { index with pendingRemoves := [] } with pendingInserts := [] } :=
        ⟨removed.params, removed.sound, removed.connected⟩
      have wholeInserted := spares.1.keeps (Whole params)
        (fun _ _ _ whole spared applied => whole.applyInsert positive spared applied) emptied
        isInserted
      exact wholeInserted.repair positive (spares.2 inserted isInserted) repaired

end

/-! ## Runs -/

/-- What an index in memory is told. -/
inductive MemoryOp where
  | insert (id : RowId) (embedding : Embedding)
  | remove (id : RowId)
  | commit

/-- An insertion that is refused changes nothing. -/
def step (index : HnswIndex S) : MemoryOp -> Except Error (HnswIndex S)
  | .insert id embedding =>
    match index.insert id embedding with
    | .ok told => .ok told
    | .error _ => .ok index
  | .remove id => .ok (index.remove id)
  | .commit => index.commit

/-- Pruning spares the graph in what an index is told to do. -/
def SparesStep (index : HnswIndex S) : MemoryOp -> Prop
  | .commit => index.SparesCommit
  | _ => True

/-- An index between operations, as long as pruning spares it. -/
def Intact (params : HnswParams) (index : HnswIndex S) : Prop :=
  index.Whole params ∧ ∃ want, index.Follows want

section

variable {want : RowId -> Option S.Vector} (follows : index.Follows want)

include follows

theorem Follows.sound : index.graph.Sound := by
  obtain ⟨_, stands, -⟩ := follows.awaits
  exact stands.sound

theorem Follows.step {op : MemoryOp} (stepped : index.step op = .ok next) :
    (∃ want, next.Follows want) ∧ next.params = index.params ∧ next.dim = index.dim := by
  cases op with
  | insert id embedding =>
    rw [HnswIndex.step] at stepped
    by_cases fits : embedding.length = index.dim
    · obtain ⟨told, inserted, kin, followsTold⟩ := follows.insert id fits
      rw [inserted] at stepped
      cases stepped
      exact ⟨⟨_, followsTold⟩, kin.2, kin.1⟩
    · rw [HnswIndex.insert, if_pos fits] at stepped
      cases stepped
      exact ⟨⟨want, follows⟩, rfl, rfl⟩
  | remove id =>
    cases stepped
    exact ⟨⟨_, follows.remove id⟩, rfl, rfl⟩
  | commit =>
    obtain ⟨committed, isCommitted, settled, kin⟩ := follows.commit
    cases isCommitted.symm.trans stepped
    exact ⟨⟨want, settled.follows⟩, kin.2, kin.1⟩

end

theorem sound_of_ran {dim : Nat} {ops : List MemoryOp}
    (ran : ops.foldlM step (withParams dim params) = .ok index) : index.graph.Sound := by
  obtain ⟨want, follows⟩ := foldlM_keeps (fun index : HnswIndex S => ∃ want, index.Follows want)
    (fun _ _ _ follows stepped => (follows.choose_spec.step stepped).1)
    ⟨_, (settled_withParams dim params).follows⟩ ran
  exact follows.sound

theorem Intact.step (positive : 0 < params.degree 0) (intact : index.Intact params)
    {op : MemoryOp} (spares : index.SparesStep op) (stepped : index.step op = .ok next) :
    next.Intact params := by
  obtain ⟨whole, want, follows⟩ := intact
  obtain ⟨⟨_, followsNext⟩, sameParams, -⟩ := follows.step stepped
  refine ⟨⟨sameParams.trans whole.params, followsNext.sound, ?_⟩, _, followsNext⟩
  cases op with
  | insert id embedding =>
    rw [HnswIndex.step] at stepped
    split at stepped
    · rename_i told inserted
      unfold HnswIndex.insert at inserted
      split at inserted
      · cases inserted
      · cases inserted
        cases stepped
        exact whole.connected
    · cases stepped
      exact whole.connected
  | remove id =>
    cases stepped
    exact whole.connected
  | commit => exact whole.commit positive spares stepped

theorem intact_withParams (dim : Nat) (params : HnswParams) :
    (withParams dim params : HnswIndex S).Intact params := by
  refine ⟨⟨rfl, Graph.sound_empty, fun node isNode => ?_⟩, _,
    (settled_withParams dim params).follows⟩
  simp [withParams, Graph.empty] at isNode

end HnswIndex

/-! ## Rows of one embedding -/

namespace Twins

open HnswIndex
open Pair (unitSpace origin)

/-- The candidates in order, by a sort that evaluates. -/
def inOrder (candidates : List Candidate) : List Candidate :=
  candidates.insertionSort fun left right => (left.compare unitSpace right).isLE = true

theorem mergeSort_eq_inOrder (candidates : List Candidate) :
    candidates.mergeSort (fun left right => (left.compare unitSpace right).isLE) =
      inOrder candidates := by
  have distances : Std.TransCmp unitSpace.compare := inferInstanceAs (Std.TransOrd UInt32)
  have ordered : Std.TransCmp (Candidate.compare unitSpace) := transCmp_compare
  have same (left right : Candidate) (low : (left.compare unitSpace right).isLE)
      (high : (right.compare unitSpace left).isLE) : left = right := by
    have equal : left.compare unitSpace right = .eq := by
      have swapped : right.compare unitSpace left = (left.compare unitSpace right).swap :=
        ordered.eq_swap
      cases told : left.compare unitSpace right with
      | eq => rfl
      | lt => simp [swapped, told] at high
      | gt => simp [told] at low
    obtain ⟨near, tied⟩ := Ordering.then_eq_eq.mp equal
    have sameDistance : left.distance = right.distance :=
      Std.LawfulEqOrd.eq_of_compare near
    have sameNode : left.node = right.node := Std.LawfulEqOrd.eq_of_compare tied
    cases right
    cases sameDistance
    cases sameNode
    rfl
  have total : Std.Total fun left right : Candidate =>
      (left.compare unitSpace right).isLE = true := by
    refine ⟨fun left right => ?_⟩
    have swapped : right.compare unitSpace left = (left.compare unitSpace right).swap :=
      ordered.eq_swap
    cases told : left.compare unitSpace right <;> simp [swapped, told]
  have transitive : IsTrans Candidate fun left right =>
      (left.compare unitSpace right).isLE = true :=
    ⟨fun _ _ _ => ordered.isLE_trans⟩
  have antisymmetric : Std.Antisymm fun left right : Candidate =>
      (left.compare unitSpace right).isLE = true := ⟨same⟩
  have sorted := mergeSort_eq_insertionSort
    (fun left right : Candidate => (left.compare unitSpace right).isLE = true) candidates
  rw [inOrder, <- sorted]
  simp only [Bool.decide_eq_true]

/-- `search_layer` without a filter, with that sort. -/
def searchInOrder (nodes : List (Node unitSpace.Vector)) (entry ef : Nat) :
    Except Error (List Candidate) :=
  match nodes[entry]? with
  | none => .ok []
  | some node => do
      let start : Candidate := ⟨unitSpace.distance origin node.vector, entry⟩
      let walk <- Walk.run unitSpace nodes origin (max ef 1) 0 (admits none) (nodes.length + 1)
        ⟨(List.replicate nodes.length false).set entry true, [start], [start]⟩
      return inOrder walk.results

theorem searchLayer_eq (nodes : List (Node unitSpace.Vector)) (entry ef : Nat) :
    searchLayer unitSpace nodes origin entry ef 0 none = searchInOrder nodes entry ef := by
  unfold searchLayer searchInOrder
  cases nodes[entry]? with
  | none => rfl
  | some node =>
    dsimp only
    rw [admits, ok_bind, if_pos rfl]
    simp only [mergeSort_eq_inOrder]

/-- `link_back` on the lowest layer, with that sort. -/
def linkInOrder (newIndex degree : Nat) (nodes : List (Node unitSpace.Vector))
    (neighbor : Nat) : List (Node unitSpace.Vector) :=
  match nodes[neighbor]? with
  | none => nodes
  | some node =>
    let links := node.layer 0 ++ [newIndex]
    if links.length ≤ degree then nodes.modify neighbor (·.setLayer 0 links)
    else
      let candidates := links.filterMap fun other =>
        (nodes[other]?).map fun found =>
          (⟨unitSpace.distance node.vector found.vector, other⟩ : Candidate)
      nodes.modify neighbor
        (·.setLayer 0 (selectNeighbors unitSpace nodes (inOrder candidates) degree))

theorem linkBack_eq (newIndex degree : Nat) :
    linkBack unitSpace newIndex 0 degree = linkInOrder newIndex degree := by
  funext nodes neighbor
  unfold linkBack linkInOrder
  simp only [mergeSort_eq_inOrder]
  cases nodes[neighbor]? with
  | none => rfl
  | some node => rfl

instance : DecidableEq unitSpace.Vector := inferInstanceAs (DecidableEq Embedding)

/-- The node of a row of that embedding. -/
def twin (id : RowId) : Node unitSpace.Vector := Node.new id origin 0

def row (id : RowId) : RowId × unitSpace.Vector := (id, origin)

/-- A row of that embedding joins a graph of the lowest layer alone. -/
def join (params : HnswParams) (nodes : List (Node unitSpace.Vector)) (id : RowId) :
    Except Error (List (Node unitSpace.Vector)) := do
  let all := nodes ++ [twin id]
  let found <- searchInOrder all 0 params.efConstruction
  let selected := selectNeighbors unitSpace all found (params.degree 0)
  return selected.foldl (linkInOrder nodes.length (params.degree 0))
    (all.modify nodes.length (·.setLayer 0 selected))

theorem insertNode_eq (params : HnswParams) (nodes : List (Node unitSpace.Vector)) (id : RowId) :
    (⟨nodes, some 0, 0⟩ : Graph unitSpace).insertNode params id origin 0 =
      (join params nodes id).map fun joined => (⟨joined, some 0, 0⟩, nodes.length) := by
  unfold Graph.insertNode join
  dsimp only
  rw [show descend unitSpace nodes origin 0 0 0 = .ok (0, 0) from rfl, ok_bind]
  rw [range_one, reverse_singleton, foldlM_cons]
  unfold connect
  dsimp only
  rw [show (Node.new id origin 0 : Node unitSpace.Vector) = twin id from rfl, searchLayer_eq,
    linkBack_eq]
  cases searchInOrder (nodes ++ [twin id]) 0 params.efConstruction with
  | error error => rfl
  | ok found => rfl

variable {nodes : List (Node unitSpace.Vector)} {index : HnswIndex unitSpace}

theorem foldlM_insertNode_eq {params : HnswParams} {shift ceiling : Nat} {ids : List RowId}
    (flat : ∀ id ∈ ids, levelOf id shift ceiling = 0) {joined : List (Node unitSpace.Vector)}
    (isJoined : ids.foldlM (join params) nodes = .ok joined) (sameParams : index.params = params)
    (isGraph : index.graph = ⟨nodes, some 0, 0⟩) :
    ∃ last, (ids.map row).foldlM (fun (index : HnswIndex unitSpace) row =>
        index.insertNode row.1 row.2 (levelOf row.1 shift ceiling)) index = .ok last ∧
      last.graph = ⟨joined, some 0, 0⟩ ∧ last.dim = index.dim := by
  induction ids generalizing nodes index with
  | nil =>
    cases isJoined
    exact ⟨index, rfl, isGraph, rfl⟩
  | cons id ids ih =>
    obtain ⟨middle, first, rest⟩ := bind_eq_ok isJoined
    obtain ⟨grown, inserted, grownGraph, grownParams, grownDim⟩ : ∃ grown,
        index.insertNode id origin (levelOf id shift ceiling) = .ok grown ∧
          grown.graph = ⟨middle, some 0, 0⟩ ∧ grown.params = params ∧ grown.dim = index.dim := by
      refine ⟨{ index with
        graph := ⟨middle, some 0, 0⟩
        nodeIds := index.nodeIds.insert id nodes.length
        rows := index.rows.insert id .graph }, ?_, rfl, sameParams, rfl⟩
      unfold HnswIndex.insertNode
      rw [flat id mem_cons_self, isGraph, sameParams, insertNode_eq, first]
      rfl
    obtain ⟨last, folded, isLast, sameDim⟩ :=
      ih (fun other member => flat other (mem_cons_of_mem _ member)) rest grownParams grownGraph
    refine ⟨last, ?_, isLast, sameDim.trans grownDim⟩
    rw [map_cons, foldlM_cons]
    dsimp only [row]
    rw [inserted, ok_bind]
    exact folded

/-- At most four links a node, on the lowest layer. -/
def fewLinks : HnswParams := ⟨2, 200, 64, 2⟩

/-- Rows of that embedding, told one after the other and committed. -/
def ops (ids : List RowId) : List MemoryOp := ids.map (.insert · origin) ++ [.commit]

def staged (ids : List RowId) : HnswIndex unitSpace :=
  { withParams 1 fewLinks with
    rows := ids.foldl (fun rows id => rows.insert id (.staged origin)) ∅
    pendingInserts := ids }

theorem foldlM_insert (ids : List RowId) (line : index.dim = 1) :
    (ids.map (MemoryOp.insert · origin)).foldlM step index = .ok { index with
      rows := ids.foldl (fun rows id => rows.insert id (.staged origin)) index.rows
      pendingInserts := index.pendingInserts ++ ids } := by
  induction ids generalizing index with
  | nil =>
    rw [append_nil]
    rfl
  | cons id ids ih =>
    have inserted : index.step (.insert id origin) = .ok { index with
        rows := index.rows.insert id (.staged origin)
        pendingInserts := index.pendingInserts ++ [id] } := by
      rw [HnswIndex.step, HnswIndex.insert, if_neg (not_not.mpr (show origin.length = _ by
        rw [line]; rfl))]
      rfl
    rw [map_cons, foldlM_cons, inserted, ok_bind, foldl_cons]
    have rest := ih (show ({ index with
        rows := index.rows.insert id (.staged origin)
        pendingInserts := index.pendingInserts ++ [id] } : HnswIndex unitSpace).dim = 1 from line)
    rwa [append_assoc] at rest

/-- The first of the rows is in the graph. -/
def seeded (first : RowId) (rest : List RowId) : HnswIndex unitSpace :=
  { (staged (first :: rest)).cleared with
    graph := ⟨[twin first], some 0, 0⟩
    nodeIds := (∅ : Std.ExtTreeMap RowId Nat).insert first 0
    rows := (∅ : Std.ExtTreeMap RowId (Held unitSpace.Vector)).insert first .graph }

section

variable {first : RowId} {rest : List RowId}

/-- The rows are joined one after the other, where their levels are all the lowest. -/
theorem committed (pending : (staged (first :: rest)).pendingRows = (first :: rest).map row)
    (flat : ∀ id ∈ first :: rest, levelOf id (levelShift 2) (maxLevelFor (staged (first ::
      rest)).rows.size 2) = 0) (joined : rest.foldlM (join fewLinks) [twin first] = .ok nodes) :
    ∃ index : HnswIndex unitSpace,
      (ops (first :: rest)).foldlM step (withParams 1 fewLinks) = .ok index ∧
        index.graph = ⟨nodes, some 0, 0⟩ ∧ index.dim = 1 := by
  obtain ⟨last, folded, isLast, sameDim⟩ := foldlM_insertNode_eq
    (fun id member => flat id (mem_cons_of_mem _ member)) joined
    (show (seeded first rest).params = fewLinks from rfl) rfl
  have seeds : (staged (first :: rest)).cleared.insertNode first origin 0 =
      .ok (seeded first rest) := rfl
  have built : (staged (first :: rest)).build = .ok last := by
    rw [HnswIndex.build, pending, map_cons, foldlM_cons]
    dsimp only [row]
    rw [show levelOf first (levelShift (staged (first :: rest)).params.m)
      (maxLevelFor (staged (first :: rest)).rows.size (staged (first :: rest)).params.m) = 0 from
        flat first mem_cons_self]
    exact (congrArg (· >>= _) seeds).trans folded
  refine ⟨{ last with pendingInserts := [], pendingRemoves := [] }, ?_, isLast, sameDim⟩
  have rebuilds : (staged (first :: rest)).commit = (do
      let built <- (staged (first :: rest)).build
      return { built with pendingInserts := [], pendingRemoves := [] }) := rfl
  rw [ops, foldlM_append, foldlM_insert (first :: rest) rfl, ok_bind]
  refine (bind_pure _).trans (rebuilds.trans ?_)
  rw [built]
  rfl

/-- What a check of the joined nodes says of the index. -/
theorem committed_of_check {property : List (Node unitSpace.Vector) → Prop} [DecidablePred property]
    (pending : (staged (first :: rest)).pendingRows = (first :: rest).map row)
    (flat : ∀ id ∈ first :: rest, levelOf id (levelShift 2) (maxLevelFor (staged (first ::
      rest)).rows.size 2) = 0)
    (checked : ((rest.foldlM (join fewLinks) [twin first]).map fun nodes => decide (property nodes))
      = .ok true) :
    ∃ (index : HnswIndex unitSpace) (nodes : List (Node unitSpace.Vector)),
      (ops (first :: rest)).foldlM step (withParams 1 fewLinks) = .ok index ∧
        index.graph = ⟨nodes, some 0, 0⟩ ∧ index.dim = 1 ∧ property nodes := by
  cases joined : rest.foldlM (join fewLinks) [twin first] with
  | error error =>
    rw [joined] at checked
    cases checked
  | ok nodes =>
    obtain ⟨index, ran, isGraph, line⟩ := committed pending flat joined
    rw [joined] at checked
    exact ⟨index, nodes, ran, isGraph, line, of_decide_eq_true (Except.ok.inj checked)⟩

end

theorem sixth_committed : ∃ (index : HnswIndex unitSpace) (nodes : List (Node unitSpace.Vector)),
    (ops [43, 44, 45, 46, 47, 48]).foldlM step (withParams 1 fewLinks) = .ok index ∧
      index.graph = ⟨nodes, some 0, 0⟩ ∧ index.dim = 1 ∧ (∀ node ∈ nodes, 5 ∉ node.layer 0) ∧
        (nodes[5]?).map (·.deleted) = some false :=
  committed_of_check (by decide +kernel) (by decide +kernel) (by decide +kernel)

theorem distance_symm (left right : unitSpace.Vector) :
    unitSpace.distance left right = unitSpace.distance right left := by
  have symm (left right : Embedding) : (if left = right then (0x00000000 : UInt32)
      else 0x3f800000) = if right = left then 0x00000000 else 0x3f800000 := by
    simp only [eq_comm]
  exact symm left right

theorem distance_self_le (left right : unitSpace.Vector) :
    (unitSpace.compare (unitSpace.distance left left) (unitSpace.distance left right)).isLE := by
  have least (distance : UInt32) : (Ord.compare (0x00000000 : UInt32) distance).isLE := by
    rw [Std.isLE_compare]
    exact UInt32.zero_le
  have self : unitSpace.distance left left = 0x00000000 := if_pos rfl
  rw [self]
  exact least _

theorem third_committed : ∃ (index : HnswIndex unitSpace) (nodes : List (Node unitSpace.Vector)),
    (ops [43, 44, 45]).foldlM step (withParams 1 fewLinks) = .ok index ∧
      index.graph = ⟨nodes, some 0, 0⟩ ∧ index.dim = 1 ∧
      nodes.map (fun node => (node.id, node.layer 0)) =
        [(43, [1, 2]), (44, [0, 2]), (45, [0, 1])] :=
  committed_of_check (by decide +kernel) (by decide +kernel) (by decide +kernel)

end Twins

end InlaySql.Hnsw
