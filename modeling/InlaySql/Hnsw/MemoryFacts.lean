import InlaySql.Hnsw.Memory

/-!
# What the index in memory does with a batch

Each operation is told by the fields it changes and by what the graph holds of each row
afterwards. A rebuild puts every registered row into a fresh graph, with its staged vector or
the one of its node; an incremental commit drops the removals and places the insertions that
the register still has.
-/

namespace InlaySql.Hnsw

open List Lib Sql

namespace HnswIndex

variable {S : Space} {index : HnswIndex S} {holds : RowId -> Option S.Vector} {id : RowId}

/-- The graph holds this of each row, and the book-keeping agrees. -/
def Stands (index : HnswIndex S) (holds : RowId -> Option S.Vector) : Prop :=
  Ledger index.graph (index.nodeIds[·]?) index.tombstones holds

section

variable (stands : index.Stands holds)

include stands

theorem Stands.applyRemove (id : RowId) : ∃ graph nodeIds tombstones,
      index.applyRemove id = { index with graph, nodeIds, tombstones } ∧
      Ledger graph (nodeIds[·]?) tombstones (dropped holds id) ∧ nodeIds[id]? = none := by
  unfold HnswIndex.applyRemove
  cases isLive : index.nodeIds[id]? with
  | none =>
    refine ⟨index.graph, index.nodeIds, index.tombstones, rfl, ?_, isLive⟩
    rw [dropped_of_none _ _ (Ledger.holds_eq_none stands isLive)]
    exact stands
  | some position =>
    obtain ⟨node, isNode, isId, live, -⟩ := Ledger.found stands isLive
    refine ⟨index.graph.mark position, index.nodeIds.erase id, index.tombstones + 1, ?_, ?_, ?_⟩
    · dsimp only
      rw [HnswIndex.tombstone, isNode]
      simp [live, isId]
    · rw [getElem?_erase]
      exact Ledger.mark stands isLive
    · exact congrFun (getElem?_erase index.nodeIds id) id |>.trans (dropped_same _ _)

theorem Stands.foldl_applyRemove (removes : List RowId) : ∃ graph nodeIds tombstones,
      removes.foldl HnswIndex.applyRemove index = { index with graph, nodeIds, tombstones } ∧
      Ledger graph (nodeIds[·]?) tombstones (removes.foldl dropped holds) := by
  induction removes generalizing index holds with
  | nil => exact ⟨index.graph, index.nodeIds, index.tombstones, rfl, stands⟩
  | cons id removes ih =>
    obtain ⟨graph, nodeIds, tombstones, removed, ledger, -⟩ := stands.applyRemove id
    have removedStands : Stands { index with graph, nodeIds, tombstones } (dropped holds id) :=
      ledger
    obtain ⟨graphLast, nodeIdsLast, tombstonesLast, rest, ledgerLast⟩ := ih removedStands
    exact ⟨graphLast, nodeIdsLast, tombstonesLast, by rw [foldl_cons, removed, rest], ledgerLast⟩

theorem Stands.insertNode (absent : index.nodeIds[id]? = none) (vector : S.Vector) (level : Nat) :
    ∃ graph nodeIds, index.insertNode id vector level =
        .ok { index with graph, nodeIds, rows := index.rows.insert id .graph } ∧
      Ledger graph (nodeIds[·]?) index.tombstones (recorded holds id vector) := by
  obtain ⟨graph, inserted, ledger⟩ :=
    Ledger.insertNode stands absent index.params vector level
  refine ⟨graph, index.nodeIds.insert id index.graph.nodes.length, ?_, ?_⟩
  · rw [HnswIndex.insertNode, inserted]
    rfl
  · rw [getElem?_insert]
    exact ledger

theorem Stands.place (id : RowId) (vector : S.Vector) (level : Nat) :
    ∃ graph nodeIds tombstones, index.place id vector level = .ok { index with
        graph, nodeIds, tombstones, rows := (index.rows.erase id).insert id .graph } ∧
      Ledger graph (nodeIds[·]?) tombstones (recorded holds id vector) := by
  have taken : Stands { index with rows := index.rows.erase id } holds := stands
  obtain ⟨graph, nodeIds, tombstones, removed, ledger, absent⟩ := taken.applyRemove id
  have retired : Stands { index with graph, nodeIds, tombstones, rows := index.rows.erase id }
      (dropped holds id) := ledger
  obtain ⟨grown, claimed, inserted, ledgerGrown⟩ := retired.insertNode absent vector level
  refine ⟨grown, claimed, tombstones, ?_, by rwa [recorded_dropped] at ledgerGrown⟩
  rw [HnswIndex.place, removed, inserted]

end

/-! ## The insertions of a batch -/

/-- What a row is due, by its entry in the register: nothing and it has nothing, its staged
vector and it will have it, or what it has. -/
def Due {V : Type} (want holds : Option V) (queued : Prop) : Option (Held V) -> Prop
  | none => want = none ∧ holds = none
  | some (.staged vector) => want = some vector ∧ queued
  | some .graph => want = holds ∧ holds.isSome

theorem getElem?_claimed (rows : Std.ExtTreeMap RowId (Held S.Vector)) (id other : RowId) :
    ((rows.erase id).insert id Held.graph)[other]? =
      if other = id then some Held.graph else rows[other]? := by
  by_cases same : other = id
  · simp [same]
  · simp [Std.ExtTreeMap.getElem?_insert, Std.ExtTreeMap.getElem?_erase, same, Ne.symm same]

theorem Stands.foldlM_applyInsert (stands : index.Stands holds) (want : RowId -> Option S.Vector)
    (shift ceiling : Nat) (queue : List RowId)
    (due : ∀ id, Due (want id) (holds id) (id ∈ queue) index.rows[id]?) :
    ∃ graph nodeIds tombstones rows, queue.foldlM (applyInsert shift ceiling) index =
        .ok { index with graph, nodeIds, tombstones, rows } ∧
      Ledger graph (nodeIds[·]?) tombstones want ∧
      ∀ id, rows[id]? = (want id).map fun _ => .graph := by
  induction queue generalizing index holds with
  | nil =>
    have settled (id : RowId) :
        want id = holds id ∧ index.rows[id]? = (want id).map fun _ => .graph := by
      have isDue := due id
      cases isHeld : index.rows[id]? with
      | none =>
        rw [isHeld] at isDue
        simp [isDue.1, isDue.2]
      | some held =>
        rw [isHeld] at isDue
        cases held with
        | staged vector => cases isDue.2
        | graph =>
          obtain ⟨same, present⟩ := isDue
          obtain ⟨vector, isVector⟩ := Option.isSome_iff_exists.mp present
          simp [same, isVector]
    refine ⟨index.graph, index.nodeIds, index.tombstones, index.rows, rfl, ?_,
      fun id => (settled id).2⟩
    rw [funext fun id => (settled id).1]
    exact stands
  | cons id queue ih =>
    have placed (vector : S.Vector) (isWanted : want id = some vector)
        (applied : applyInsert shift ceiling index id =
          index.place id vector (levelOf id shift ceiling)) :
        ∃ graph nodeIds tombstones rows, (id :: queue).foldlM (applyInsert shift ceiling) index =
            .ok { index with graph, nodeIds, tombstones, rows } ∧
          Ledger graph (nodeIds[·]?) tombstones want ∧
          ∀ id, rows[id]? = (want id).map fun _ => .graph := by
      obtain ⟨graph, nodeIds, tombstones, isPlaced, ledger⟩ :=
        stands.place id vector (levelOf id shift ceiling)
      have placedStands : Stands { index with
        graph, nodeIds, tombstones, rows := (index.rows.erase id).insert id .graph }
        (recorded holds id vector) := ledger
      obtain ⟨graphLast, nodeIdsLast, tombstonesLast, rowsLast, rest, last⟩ :=
        ih placedStands fun other => by
          rw [getElem?_claimed]
          by_cases same : other = id
          · rw [if_pos same, same, isWanted, recorded_same]
            exact ⟨rfl, rfl⟩
          · rw [if_neg same, recorded_other _ _ _ _ same]
            simpa [same] using due other
      refine ⟨graphLast, nodeIdsLast, tombstonesLast, rowsLast, ?_, last⟩
      rw [foldlM_cons, applied, isPlaced, ok_bind, rest]
    have isDue := due id
    cases isHeld : index.rows[id]? with
    | none =>
      obtain ⟨graph, nodeIds, tombstones, rows, rest, last⟩ := ih stands fun other => by
        by_cases same : other = id
        · rw [same]
          rw [isHeld] at isDue ⊢
          exact isDue
        · simpa [same] using due other
      refine ⟨graph, nodeIds, tombstones, rows, ?_, last⟩
      rw [foldlM_cons, applyInsert, isHeld]
      exact rest
    | some held =>
      rw [isHeld] at isDue
      cases held with
      | staged vector => exact placed vector isDue.1 (by rw [applyInsert, isHeld])
      | graph =>
        obtain ⟨same, present⟩ := isDue
        rw [Ledger.holds_isSome stands] at present
        obtain ⟨position, isLive⟩ := Option.isSome_iff_exists.mp present
        obtain ⟨node, isNode, -, -, isVector⟩ := Ledger.found stands isLive
        refine placed node.vector (same.trans isVector) ?_
        rw [applyInsert, isHeld]
        rw [isLive, Option.bind_some, isNode]

/-! ## A rebuild -/

/-- The vector of a registered row: the staged one, or the one of its node. -/
def vectorOf {V : Type} (holds : RowId -> Option V) (id : RowId) : Held V -> Option V
  | .staged vector => some vector
  | .graph => holds id

/-- A row to rebuild, with its vector. -/
def rebuilt {V : Type} (holds : RowId -> Option V) (row : RowId × Held V) : Option (RowId × V) :=
  (vectorOf holds row.1 row.2).map (row.1, ·)

theorem Stands.foldl_takeRow (stands : index.Stands holds) {rows : List (RowId × Held S.Vector)}
    (distinct : rows.Pairwise fun first second => first.1 ≠ second.1)
    (registered : ∀ row ∈ rows, row.2 = .graph -> (holds row.1).isSome)
    {orphaned : List (Option S.Vector)} {taken : List (RowId × S.Vector)}
    (there : ∀ row ∈ rows, row.2 = .graph -> ∀ position, index.nodeIds[row.1]? = some position ->
      orphaned[position]? = some (holds row.1)) :
    (rows.foldl (takeRow index.nodeIds) (orphaned, taken)).2 =
      taken ++ rows.filterMap (rebuilt holds) := by
  induction rows generalizing orphaned taken with
  | nil => simp
  | cons row rows ih =>
    obtain ⟨unlike, distinctRest⟩ := pairwise_cons.mp distinct
    have registeredRest := fun other isOther => registered other (mem_cons_of_mem _ isOther)
    obtain ⟨id, held⟩ := row
    rw [foldl_cons, filterMap_cons]
    cases held with
    | staged vector =>
      rw [takeRow]
      dsimp only
      rw [ih distinctRest registeredRest
        (fun other isOther => there other (mem_cons_of_mem _ isOther))]
      simp [rebuilt, vectorOf]
    | graph =>
      have present := registered (id, .graph) mem_cons_self rfl
      obtain ⟨vector, isVector⟩ := Option.isSome_iff_exists.mp present
      rw [Ledger.holds_isSome stands] at present
      obtain ⟨position, isLive⟩ := Option.isSome_iff_exists.mp present
      have isThere := there (id, .graph) mem_cons_self rfl position isLive
      have taking : takeRow index.nodeIds (orphaned, taken) (id, .graph) =
          (orphaned.set position none, taken ++ [(id, vector)]) := by
        dsimp only at isLive isThere isVector
        simp only [takeRow, isLive, isThere, isVector]
      rw [taking, ih distinctRest registeredRest]
      · dsimp only at isVector
        simp [rebuilt, vectorOf, isVector]
      · intro other isOther isGraph place isPlace
        have elsewhere : position ≠ place := by
          rintro rfl
          exact unlike other isOther (stands.exact.id_eq isLive isPlace)
        rw [getElem?_set_ne elsewhere]
        exact there other (mem_cons_of_mem _ isOther) isGraph place isPlace

section

variable (stands : index.Stands holds)
    (registered : ∀ id, index.rows[id]? = some .graph -> (holds id).isSome)

include stands registered

theorem Stands.pendingRows_eq :
    index.pendingRows = index.rows.toList.filterMap (rebuilt holds) := by
  rw [pendingRows, stands.foldl_takeRow (distinct_toList index.rows), nil_append]
  · rintro ⟨id, held⟩ isRow rfl
    exact registered id (Std.ExtTreeMap.mem_toList_iff_getElem?_eq_some.mp isRow)
  · rintro ⟨id, held⟩ - rfl position isLive
    obtain ⟨node, isNode, -, -, isVector⟩ := Ledger.found stands isLive
    rw [getElem?_map, isNode, Option.map_some, isVector]

theorem Stands.mem_pendingRows (id : RowId) (vector : S.Vector) : (id, vector) ∈ index.pendingRows ↔
      (index.rows[id]?).bind (vectorOf holds id) = some vector := by
  rw [stands.pendingRows_eq registered, mem_filterMap, Option.bind_eq_some_iff]
  constructor
  · rintro ⟨⟨other, held⟩, isRow, isRebuilt⟩
    obtain ⟨found, isVector, same⟩ := Option.map_eq_some_iff.mp isRebuilt
    cases same
    exact ⟨held, Std.ExtTreeMap.mem_toList_iff_getElem?_eq_some.mp isRow, isVector⟩
  · rintro ⟨held, isHeld, isVector⟩
    exact ⟨(id, held), Std.ExtTreeMap.mem_toList_iff_getElem?_eq_some.mpr isHeld,
      by simp [rebuilt, isVector]⟩

theorem Stands.distinct_pendingRows :
    index.pendingRows.Pairwise fun first second => first.1 ≠ second.1 := by
  rw [stands.pendingRows_eq registered]
  refine (distinct_toList index.rows).filterMap _ ?_
  intro first second unlike row isRow other isOther
  obtain ⟨_, -, rfl⟩ := Option.map_eq_some_iff.mp isRow
  obtain ⟨_, -, rfl⟩ := Option.map_eq_some_iff.mp isOther
  exact unlike

end

theorem Stands.foldlM_insertNode (stands : index.Stands holds) (level : RowId -> Nat)
    {rows : List (RowId × S.Vector)}
    (distinct : rows.Pairwise fun first second => first.1 ≠ second.1)
    (absent : ∀ row ∈ rows, holds row.1 = none) :
    ∃ graph nodeIds registered,
      rows.foldlM (fun index row => index.insertNode row.1 row.2 (level row.1)) index =
        .ok { index with graph, nodeIds, rows := registered } ∧
      Ledger graph (nodeIds[·]?) index.tombstones
        (rows.foldl (fun holds row => recorded holds row.1 row.2) holds) ∧
      (fun id => registered[id]?) = (rows.map fun row => (row.1, Held.graph)).foldl
        (fun holds row => recorded holds row.1 row.2) (index.rows[·]?) := by
  induction rows generalizing index holds with
  | nil => exact ⟨index.graph, index.nodeIds, index.rows, rfl, stands, rfl⟩
  | cons row rows ih =>
    obtain ⟨unlike, distinctRest⟩ := pairwise_cons.mp distinct
    have absentRow := Ledger.register_eq_none stands (absent row mem_cons_self)
    obtain ⟨graph, nodeIds, inserted, ledger⟩ :=
      stands.insertNode absentRow row.2 (level row.1)
    have insertedStands : Stands { index with
      graph, nodeIds, rows := index.rows.insert row.1 .graph } (recorded holds row.1 row.2) :=
      ledger
    obtain ⟨graphLast, nodeIdsLast, registered, rest, ledgerLast, isRegistered⟩ :=
      ih insertedStands distinctRest fun other isOther => by
        rw [recorded_other _ _ _ _ (unlike other isOther).symm]
        exact absent other (mem_cons_of_mem _ isOther)
    refine ⟨graphLast, nodeIdsLast, registered, ?_, ledgerLast, ?_⟩
    · rw [foldlM_cons, inserted, ok_bind, rest]
    · rw [isRegistered, getElem?_insert, map_cons, foldl_cons]

theorem Stands.build (stands : index.Stands holds)
    (registered : ∀ id, index.rows[id]? = some .graph -> (holds id).isSome) :
    ∃ graph nodeIds rows, index.build = .ok { index with
        graph, nodeIds, rows
        tombstones := 0
        builtM := index.params.m
        builtEfConstruction := index.params.efConstruction } ∧
      Ledger graph (nodeIds[·]?) 0 (fun id => (index.rows[id]?).bind (vectorOf holds id)) ∧
      ∀ id, rows[id]? = ((index.rows[id]?).bind (vectorOf holds id)).map fun _ => .graph := by
  have distinct := stands.distinct_pendingRows registered
  have fresh : Stands { index with
      rows := ∅
      graph := Graph.empty S
      nodeIds := ∅
      tombstones := 0
      builtM := index.params.m
      builtEfConstruction := index.params.efConstruction } fun _ => none := by
    unfold Stands
    simpa using Ledger.empty
  obtain ⟨graph, nodeIds, rows, built, ledger, isRegistered⟩ := fresh.foldlM_insertNode
    (fun id => levelOf id (levelShift index.params.m) (maxLevelFor index.rows.size index.params.m))
    distinct fun _ _ => rfl
  have claimed : (index.pendingRows.map fun row => (row.1, Held.graph)).foldl
      (fun holds row => recorded holds row.1 row.2) (fun _ => none) =
      fun id => ((index.rows[id]?).bind (vectorOf holds id)).map fun _ =>
        (Held.graph : Held S.Vector) := by
    refine foldl_recorded_eq (pairwise_map.mpr distinct) fun id held => ?_
    simp only [mem_map, Prod.mk.injEq, Option.map_eq_some_iff]
    constructor
    · rintro ⟨⟨_, vector⟩, isPending, rfl, rfl⟩
      exact ⟨vector, (stands.mem_pendingRows registered _ vector).mp isPending, rfl⟩
    · rintro ⟨vector, isWanted, rfl⟩
      exact ⟨(id, vector), (stands.mem_pendingRows registered id vector).mpr isWanted, rfl, rfl⟩
  have none_registered : (fun id : RowId => (∅ : Std.ExtTreeMap RowId (Held S.Vector))[id]?) =
      fun _ => none := by
    simp
  refine ⟨graph, nodeIds, rows, built, ?_, fun id => ?_⟩
  · rwa [foldl_recorded_eq distinct (stands.mem_pendingRows registered)] at ledger
  · rw [none_registered, claimed] at isRegistered
    exact congrFun isRegistered id

/-! ## A commit -/

/-- Nothing waits, every row held is in the graph, and the entry point is live. -/
structure Settled (index : HnswIndex S) (holds : RowId -> Option S.Vector) : Prop where
  stands : index.Stands holds
  rows : ∀ id, index.rows[id]? = (holds id).map fun _ => .graph
  pendingInserts : index.pendingInserts = []
  pendingRemoves : index.pendingRemoves = []
  entryLive : index.graph.EntryLive

/-- The fields an index keeps to. -/
def Kin (before after : HnswIndex S) : Prop :=
  after.dim = before.dim ∧ after.params = before.params

theorem Stands.repair (stands : index.Stands holds)
    (rows : ∀ id, index.rows[id]? = (holds id).map fun _ => .graph)
    (inserts : index.pendingInserts = []) (removes : index.pendingRemoves = []) :
    ∃ repaired, index.repair = .ok repaired ∧ repaired.Settled holds ∧ index.Kin repaired := by
  have registered (id : RowId) (isGraph : index.rows[id]? = some .graph) : (holds id).isSome := by
    rw [rows id] at isGraph
    cases isHeld : holds id with
    | none => simp [isHeld] at isGraph
    | some vector => rfl
  unfold HnswIndex.repair
  split
  · obtain ⟨graph, nodeIds, built, isBuilt, ledger, isRow⟩ := stands.build registered
    have same : (fun id => (index.rows[id]?).bind (vectorOf holds id)) = holds := by
      funext id
      rw [rows id]
      cases isHeld : holds id with
      | none => rfl
      | some vector => exact isHeld
    have isHolds := fun id => congrFun same id
    rw [same] at ledger
    exact ⟨_, isBuilt, ⟨ledger, fun id => by rw [<- isHolds id]; exact isRow id, inserts, removes,
      ledger.entryLive⟩, rfl, rfl⟩
  · cases isEntry : index.graph.entry with
    | none =>
      refine ⟨index, by rw [Option.bind_none], ⟨stands, rows, inserts, removes, ?_⟩, rfl, rfl⟩
      intro entry found
      rw [isEntry] at found
      cases found
    | some entry =>
      obtain ⟨node, isNode, -⟩ := stands.sound.rooted entry isEntry
      rw [Option.bind_some, isNode]
      dsimp only
      by_cases deleted : node.deleted
      · obtain ⟨ledger, live⟩ := Ledger.repickEntry stands (by omega)
        exact ⟨{ index with graph := index.graph.repickEntry }, by rw [if_pos deleted],
          ⟨ledger, rows, inserts, removes, live⟩, rfl, rfl⟩
      · refine ⟨index, by rw [if_neg deleted], ⟨stands, rows, inserts, removes, ?_⟩, rfl, rfl⟩
        intro other found
        rw [isEntry] at found
        cases found
        exact ⟨node, isNode, by simpa using deleted⟩

/-- What a row waits for between commits: its removal, its staged vector, or nothing. -/
def Awaits {V : Type} (want holds : Option V) (queued removed : Prop) : Option (Held V) -> Prop
  | none => want = none ∧ (holds = none ∨ removed)
  | some (.staged vector) => want = some vector ∧ queued
  | some .graph => want = holds ∧ holds.isSome ∧ ¬removed

/-- An index between commits, and what every row is due. -/
structure Follows (index : HnswIndex S) (want : RowId -> Option S.Vector) : Prop where
  awaits : ∃ holds, index.Stands holds ∧ ∀ id, Awaits (want id) (holds id)
    (id ∈ index.pendingInserts) (id ∈ index.pendingRemoves) index.rows[id]?
  entryLive : index.graph.EntryLive

variable {V : Type} {held : Option (Held V)} {want : RowId -> Option S.Vector}

theorem foldl_dropped (removes : List RowId) (holds : RowId -> Option V) (id : RowId) :
    removes.foldl dropped holds id = if id ∈ removes then none else holds id := by
  induction removes generalizing holds with
  | nil => simp
  | cons first removes ih =>
    rw [foldl_cons, ih]
    by_cases same : id = first
    · simp [same]
    · simp [same, dropped_other _ _ _ same]

theorem Awaits.due {want holds : Option V} {queued removed : Prop} [Decidable removed]
    (awaits : Awaits want holds queued removed held) :
    Due want (if removed then none else holds) queued held := by
  match held, awaits with
  | none, ⟨unwanted, nothing⟩ =>
    refine ⟨unwanted, ?_⟩
    split
    · rfl
    · exact nothing.resolve_right ‹_›
  | some (.staged _), awaits => exact awaits
  | some .graph, ⟨same, present, kept⟩ =>
    rw [if_neg kept]
    exact ⟨same, present⟩

theorem Awaits.want_eq {want : Option V} {holds : RowId -> Option V}
    {queued removed : Prop} (awaits : Awaits want (holds id) queued removed held) :
    held.bind (vectorOf holds id) = want := by
  match held, awaits with
  | none, ⟨unwanted, _⟩ => exact unwanted.symm
  | some (.staged _), ⟨wanted, _⟩ => exact wanted.symm
  | some .graph, ⟨same, _⟩ => exact same.symm

theorem Follows.commit (follows : index.Follows want) :
    ∃ committed, index.commit = .ok committed ∧ committed.Settled want ∧ index.Kin committed := by
  obtain ⟨⟨holds, stands, awaits⟩, entryLive⟩ := follows
  unfold HnswIndex.commit
  dsimp only
  split
  · rename_i idle
    have idle := not_or.mp idle.1
    have inserts : index.pendingInserts = [] := not_not.mp idle.1
    have removes : index.pendingRemoves = [] := not_not.mp idle.2
    have settled (id : RowId) :
        want id = holds id ∧ index.rows[id]? = (holds id).map fun _ => .graph := by
      have isAwaited := awaits id
      rw [inserts, removes] at isAwaited
      cases isHeld : index.rows[id]? with
      | none =>
        rw [isHeld] at isAwaited
        have nothing : holds id = none := isAwaited.2.resolve_right not_mem_nil
        simp [isAwaited.1, nothing]
      | some held =>
        rw [isHeld] at isAwaited
        cases held with
        | staged vector => cases isAwaited.2
        | graph =>
          obtain ⟨same, present, -⟩ := isAwaited
          obtain ⟨vector, isVector⟩ := Option.isSome_iff_exists.mp present
          simp [same, isVector]
    have same : want = holds := funext fun id => (settled id).1
    exact ⟨index, rfl, ⟨same ▸ stands, fun id => by rw [same]; exact (settled id).2, inserts,
      removes, entryLive⟩, rfl, rfl⟩
  · split
    · have registered (id : RowId) (isGraph : index.rows[id]? = some .graph) :
          (holds id).isSome := by
        have isAwaited := awaits id
        rw [isGraph] at isAwaited
        exact isAwaited.2.1
      obtain ⟨graph, nodeIds, rows, built, ledger, isRow⟩ := stands.build registered
      have same : (fun id => (index.rows[id]?).bind (vectorOf holds id)) = want :=
        funext fun id => (awaits id).want_eq
      have isWant := fun id => congrFun same id
      rw [same] at ledger
      rw [built, ok_bind]
      exact ⟨_, rfl, ⟨ledger, fun id => by rw [<- isWant id]; exact isRow id, rfl, rfl,
        ledger.entryLive⟩, rfl, rfl⟩
    · have batch : Stands { index with pendingRemoves := [] } holds := stands
      obtain ⟨graph, nodeIds, tombstones, removed, ledger⟩ :=
        batch.foldl_applyRemove index.pendingRemoves
      rw [removed]
      dsimp only
      have removedStands : Stands { index with
          graph, nodeIds, tombstones, pendingInserts := [], pendingRemoves := [] }
          (index.pendingRemoves.foldl dropped holds) := ledger
      obtain ⟨graphLast, nodeIdsLast, tombstonesLast, rows, inserted, ledgerLast, isRow⟩ :=
        removedStands.foldlM_applyInsert want (levelShift index.params.m)
          (maxLevelFor index.rows.size index.params.m) index.pendingInserts fun id => by
            rw [foldl_dropped]
            exact (awaits id).due
      rw [inserted, ok_bind]
      have insertedStands : Stands { index with
          graph := graphLast, nodeIds := nodeIdsLast, tombstones := tombstonesLast, rows
          pendingInserts := [], pendingRemoves := [] } want := ledgerLast
      obtain ⟨repaired, isRepaired, settled, sameDim, sameParams⟩ :=
        insertedStands.repair isRow rfl rfl
      exact ⟨repaired, isRepaired, settled, sameDim, sameParams⟩

/-! ## What it is told -/

theorem Settled.follows (settled : index.Settled holds) : index.Follows holds := by
  refine ⟨⟨holds, settled.stands, fun id => ?_⟩, settled.entryLive⟩
  rw [settled.rows id, settled.pendingRemoves]
  cases isHeld : holds id with
  | none => exact ⟨rfl, .inl rfl⟩
  | some vector => exact ⟨rfl, rfl, not_mem_nil⟩

theorem settled_withParams (dim : Nat) (params : HnswParams) :
    (withParams dim params : HnswIndex S).Settled fun _ => none where
  stands := by
    unfold Stands
    simpa [withParams] using Ledger.empty
  rows := by simp [withParams]
  pendingInserts := rfl
  pendingRemoves := rfl
  entryLive := by simp [withParams, Graph.empty, Graph.EntryLive]

section

variable (follows : index.Follows want)

include follows

theorem Follows.setParams (params : HnswParams) : (index.setParams params).Follows want :=
  ⟨follows.awaits, follows.entryLive⟩

theorem Follows.insert (id : RowId) {embedding : Embedding} (fits : embedding.length = index.dim) :
    ∃ told, index.insert id embedding = .ok told ∧ index.Kin told ∧
      told.Follows (recorded want id (S.prepared embedding)) := by
  obtain ⟨⟨holds, stands, awaits⟩, entryLive⟩ := follows
  unfold HnswIndex.insert
  rw [if_neg (not_not.mpr fits)]
  refine ⟨_, rfl, ⟨rfl, rfl⟩, ⟨holds, stands, fun other => ?_⟩, entryLive⟩
  dsimp only
  rw [congrFun (getElem?_insert index.rows id _) other]
  by_cases same : other = id
  · rw [same, recorded_same, recorded_same]
    exact ⟨rfl, by simp⟩
  · rw [recorded_other _ _ _ _ same, recorded_other _ _ _ _ same]
    simpa [same] using awaits other

theorem Follows.remove (id : RowId) : (index.remove id).Follows (dropped want id) := by
  obtain ⟨⟨holds, stands, awaits⟩, entryLive⟩ := follows
  refine ⟨⟨holds, stands, fun other => ?_⟩, entryLive⟩
  unfold HnswIndex.remove
  dsimp only
  rw [congrFun (getElem?_erase index.rows id) other]
  by_cases same : other = id
  · rw [same, dropped_same, dropped_same]
    exact ⟨rfl, .inr (by simp)⟩
  · rw [dropped_other _ _ _ same, dropped_other _ _ _ same]
    simpa [same] using awaits other

end

theorem Stands.search (stands : index.Stands holds) {query : Embedding} {k ef : Nat}
    {filter : Option RowFilter} {answers : List Scored}
    (searched : index.searchWithEf query k ef filter = .ok answers) :
    ∀ answer ∈ answers, (holds answer.id).isSome := by
  unfold searchWithEf at searched
  split at searched
  · cases searched
  · exact Ledger.search stands searched

end HnswIndex

end InlaySql.Hnsw
