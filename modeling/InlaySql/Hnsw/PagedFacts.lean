import InlaySql.Hnsw.Paged

/-!
# What the paged index does with a batch

A commit makes every removal of the batch and then every insertion of it, whatever their order
was. A row inserted and then removed between two commits is inserted by the second.
-/

namespace InlaySql.Hnsw

open List Lib Sql

namespace PagedHnswIndex

variable {S : Space} {index : PagedHnswIndex S} {holds : RowId -> Option S.Vector} {id : RowId}

/-- The graph holds this of each row, and the book-keeping agrees. -/
def Stands (index : PagedHnswIndex S) (holds : RowId -> Option S.Vector) : Prop :=
  Ledger index.graph (index.live[·]?) index.tombstones holds

section

variable (stands : index.Stands holds)

include stands

theorem Stands.applyRemove (id : RowId) : ∃ graph live tombstones,
      index.applyRemove id = { index with graph, live, tombstones } ∧
      Ledger graph (live[·]?) tombstones (dropped holds id) ∧ live[id]? = none := by
  unfold PagedHnswIndex.applyRemove
  cases isLive : index.live[id]? with
  | none =>
    refine ⟨index.graph, index.live, index.tombstones, rfl, ?_, isLive⟩
    rw [dropped_of_none _ _ (Ledger.holds_eq_none stands isLive)]
    exact stands
  | some position =>
    obtain ⟨node, isNode, isId, live, -⟩ := Ledger.found stands isLive
    refine ⟨index.graph.mark position, index.live.erase id, index.tombstones + 1, ?_, ?_, ?_⟩
    · dsimp only
      rw [PagedHnswIndex.tombstone, isNode]
      simp [live, isId]
    · rw [getElem?_erase]
      exact Ledger.mark stands isLive
    · exact congrFun (getElem?_erase index.live id) id |>.trans (dropped_same _ _)

theorem Stands.foldl_applyRemove (removes : List RowId) : ∃ graph live tombstones,
      removes.foldl PagedHnswIndex.applyRemove index = { index with graph, live, tombstones } ∧
      Ledger graph (live[·]?) tombstones (removes.foldl dropped holds) := by
  induction removes generalizing index holds with
  | nil => exact ⟨index.graph, index.live, index.tombstones, rfl, stands⟩
  | cons id removes ih =>
    obtain ⟨graph, live, tombstones, removed, ledger, -⟩ := stands.applyRemove id
    have removedStands : Stands { index with graph, live, tombstones } (dropped holds id) :=
      ledger
    obtain ⟨graphLast, liveLast, tombstonesLast, rest, ledgerLast⟩ := ih removedStands
    exact ⟨graphLast, liveLast, tombstonesLast, by rw [foldl_cons, removed, rest], ledgerLast⟩

theorem Stands.insertNode (absent : index.live[id]? = none) (vector : S.Vector) (level : Nat) :
    ∃ graph live, index.insertNode id vector level = .ok { index with graph, live } ∧
      Ledger graph (live[·]?) index.tombstones (recorded holds id vector) := by
  obtain ⟨graph, inserted, ledger⟩ :=
    Ledger.insertNode stands absent index.params vector level
  refine ⟨graph, index.live.insert id index.graph.nodes.length, ?_, ?_⟩
  · unfold PagedHnswIndex.insertNode
    cases isEntry : index.graph.entry with
    | none =>
      -- the first record goes to place 0, which is the end of an empty list
      have empty := stands.sound.rootless isEntry
      rw [Graph.insertNode, isEntry, empty] at inserted
      cases inserted
      rw [empty]
      rfl
    | some entry =>
      dsimp only
      rw [inserted]
      rfl
  · rw [getElem?_insert]
    exact ledger

theorem Stands.applyInsert (shift ceiling : Nat) (row : RowId × Embedding) :
    ∃ graph live tombstones,
      applyInsert shift ceiling index row = .ok { index with graph, live, tombstones } ∧
      Ledger graph (live[·]?) tombstones (recorded holds row.1 (S.stored row.2)) := by
  obtain ⟨graph, live, tombstones, removed, ledger, absent⟩ := stands.applyRemove row.1
  have retired : Stands { index with graph, live, tombstones } (dropped holds row.1) := ledger
  obtain ⟨grown, claimed, inserted, ledgerGrown⟩ :=
    retired.insertNode absent (S.stored row.2) (levelOf row.1 shift ceiling)
  refine ⟨grown, claimed, tombstones, ?_, by rwa [recorded_dropped] at ledgerGrown⟩
  rw [PagedHnswIndex.applyInsert, removed, inserted]

end

/-- The insertions of a batch, recorded one after the other. -/
def inserted (holds : RowId -> Option S.Vector) (rows : List (RowId × Embedding)) :
    RowId -> Option S.Vector :=
  rows.foldl (fun holds row => recorded holds row.1 (S.stored row.2)) holds

theorem Stands.foldlM_applyInsert (stands : index.Stands holds) (shift ceiling : Nat)
    (rows : List (RowId × Embedding)) :
    ∃ graph live tombstones, rows.foldlM (PagedHnswIndex.applyInsert shift ceiling) index =
        .ok { index with graph, live, tombstones } ∧
      Ledger graph (live[·]?) tombstones (inserted holds rows) := by
  induction rows generalizing index holds with
  | nil => exact ⟨index.graph, index.live, index.tombstones, rfl, stands⟩
  | cons row rows ih =>
    obtain ⟨graph, live, tombstones, applied, ledger⟩ := stands.applyInsert shift ceiling row
    have appliedStands : Stands { index with graph, live, tombstones }
        (recorded holds row.1 (S.stored row.2)) := ledger
    obtain ⟨graphLast, liveLast, tombstonesLast, rest, ledgerLast⟩ := ih appliedStands
    exact ⟨graphLast, liveLast, tombstonesLast,
      by rw [foldlM_cons, applied, ok_bind, rest], ledgerLast⟩

/-! ## A rebuild -/

theorem foldl_keepRecord {nodes : List (Node S.Vector)} {register : RowId -> Option Nat}
    (exact : Entry.Registers (nodes.map Node.entry) register) (id : RowId) :
    (nodes.foldl keepRecord ∅)[id]? = Entry.held (nodes.map Node.entry) register id := by
  induction nodes using List.reverseRecOn generalizing register id with
  | nil =>
    cases isLive : register id with
    | none => simp [Entry.held, isLive]
    | some position =>
      obtain ⟨value, isEntry⟩ := (exact id position).mp isLive
      simp at isEntry
  | append_singleton nodes node ih =>
    rw [map_append, map_singleton] at exact ⊢
    rw [exact.held_pop, foldl_append, foldl_cons, foldl_nil, keepRecord]
    by_cases deleted : node.deleted = true
    · have notLast : ¬(node.entry.deleted = false ∧ id = node.entry.id) := by
        simp [Node.entry, deleted]
      rw [if_pos deleted, if_neg notLast]
      exact ih exact.pop id
    · have live : node.deleted = false := by simpa using deleted
      rw [if_neg deleted, congrFun (getElem?_insert _ node.id node.vector) id]
      by_cases same : id = node.id
      · rw [same, recorded_same, if_pos ⟨live, rfl⟩]
        rfl
      · rw [recorded_other _ _ _ _ same, if_neg fun isLast => same isLast.2]
        exact ih exact.pop id

theorem getElem?_foldl_erase (removes : List RowId) (rows : Std.ExtTreeMap RowId S.Vector) :
    (fun id => (removes.foldl (fun rows id => rows.erase id) rows)[id]?) =
      removes.foldl dropped (rows[·]?) := by
  induction removes generalizing rows with
  | nil => rfl
  | cons first removes ih => rw [foldl_cons, ih, getElem?_erase, foldl_cons]

theorem getElem?_foldl_insert (inserts : List (RowId × Embedding))
    (rows : Std.ExtTreeMap RowId S.Vector) :
    (fun id => (inserts.foldl (fun rows row => rows.insert row.1 (S.stored row.2)) rows)[id]?) =
      inserted (rows[·]?) inserts := by
  induction inserts generalizing rows with
  | nil => rfl
  | cons first inserts ih =>
    rw [foldl_cons, ih, getElem?_insert]
    rfl

/-- What a commit of the batch makes of what is held. -/
def outcome (index : PagedHnswIndex S) (holds : RowId -> Option S.Vector) :
    RowId -> Option S.Vector :=
  inserted (index.pendingRemoves.foldl dropped holds) index.pendingInserts

section

variable (stands : index.Stands holds)

include stands

theorem Stands.getElem?_finalRows : (fun id => index.finalRows[id]?) = index.outcome holds := by
  have kept : (fun id => (index.graph.nodes.foldl keepRecord ∅)[id]?) = holds := by
    funext id
    rw [foldl_keepRecord stands.exact id]
    exact stands.held id
  rw [outcome, <- kept, <- getElem?_foldl_erase, <- getElem?_foldl_insert]
  rfl

theorem Stands.foldlM_insertNode (level : RowId -> Nat) {rows : List (RowId × S.Vector)}
    (distinct : rows.Pairwise fun first second => first.1 ≠ second.1)
    (absent : ∀ row ∈ rows, holds row.1 = none) :
    ∃ graph live, rows.foldlM (fun index row => index.insertNode row.1 row.2 (level row.1)) index =
        .ok { index with graph, live } ∧
      Ledger graph (live[·]?) index.tombstones
        (rows.foldl (fun holds row => recorded holds row.1 row.2) holds) := by
  induction rows generalizing index holds with
  | nil => exact ⟨index.graph, index.live, rfl, stands⟩
  | cons row rows ih =>
    obtain ⟨unlike, distinctRest⟩ := pairwise_cons.mp distinct
    have absentRow := Ledger.register_eq_none stands (absent row mem_cons_self)
    obtain ⟨graph, live, inserted, ledger⟩ := stands.insertNode absentRow row.2 (level row.1)
    have insertedStands : Stands { index with graph, live } (recorded holds row.1 row.2) := ledger
    obtain ⟨graphLast, liveLast, rest, ledgerLast⟩ :=
      ih insertedStands distinctRest fun other isOther => by
        rw [recorded_other _ _ _ _ (unlike other isOther).symm]
        exact absent other (mem_cons_of_mem _ isOther)
    exact ⟨graphLast, liveLast, by rw [foldlM_cons, inserted, ok_bind, rest], ledgerLast⟩

theorem Stands.build : ∃ graph live, index.build = .ok { index with
        graph, live
        tombstones := 0
        builtM := index.params.m
        builtEfConstruction := index.params.efConstruction } ∧
      Ledger graph (live[·]?) 0 (index.outcome holds) := by
  have fresh : Stands { index with
      graph := Graph.empty S
      live := ∅
      tombstones := 0
      builtM := index.params.m
      builtEfConstruction := index.params.efConstruction } fun _ => none := by
    unfold Stands
    simpa using Ledger.empty
  obtain ⟨graph, live, built, ledger⟩ := fresh.foldlM_insertNode
    (fun id => levelOf id (levelShift index.params.m)
      (maxLevelFor index.finalRows.size index.params.m))
    (distinct_toList index.finalRows) fun _ _ => rfl
  refine ⟨graph, live, built, ?_⟩
  rwa [foldl_recorded_eq (distinct_toList index.finalRows) fun id value => by
    rw [Std.ExtTreeMap.mem_toList_iff_getElem?_eq_some, congrFun stands.getElem?_finalRows id]]
    at ledger

end

/-! ## A commit -/

/-- Nothing waits, and the entry point is live. -/
structure Settled (index : PagedHnswIndex S) (holds : RowId -> Option S.Vector) : Prop where
  stands : index.Stands holds
  pendingInserts : index.pendingInserts = []
  pendingRemoves : index.pendingRemoves = []
  entryLive : index.graph.EntryLive

/-- The fields an index keeps to. -/
def Kin (before after : PagedHnswIndex S) : Prop :=
  after.dim = before.dim ∧ after.params = before.params

theorem Stands.repair (stands : index.Stands holds) (inserts : index.pendingInserts = [])
    (removes : index.pendingRemoves = []) :
    ∃ repaired, index.repair = .ok repaired ∧ repaired.Settled holds ∧ index.Kin repaired := by
  unfold PagedHnswIndex.repair
  split
  · obtain ⟨graph, live, isBuilt, ledger⟩ := stands.build
    have same : index.outcome holds = holds := by
      rw [outcome, inserts, removes]
      rfl
    rw [same] at ledger
    exact ⟨_, isBuilt, ⟨ledger, inserts, removes, ledger.entryLive⟩, rfl, rfl⟩
  · rename_i fewer
    cases isEntry : index.graph.entry with
    | none =>
      refine ⟨index, by rw [Option.bind_none], ⟨stands, inserts, removes, ?_⟩, rfl, rfl⟩
      intro entry found
      rw [isEntry] at found
      cases found
    | some entry =>
      obtain ⟨node, isNode, -⟩ := stands.sound.rooted entry isEntry
      rw [Option.bind_some, isNode]
      dsimp only
      by_cases deleted : node.deleted
      · obtain ⟨ledger, live⟩ := Ledger.repickEntry stands (by omega)
        exact ⟨{ index with graph := index.graph.repickEntry }, by rw [if_pos deleted],
          ⟨ledger, inserts, removes, live⟩, rfl, rfl⟩
      · refine ⟨index, by rw [if_neg deleted], ⟨stands, inserts, removes, ?_⟩, rfl, rfl⟩
        intro other found
        rw [isEntry] at found
        cases found
        exact ⟨node, isNode, by simpa using deleted⟩

theorem Stands.commit (stands : index.Stands holds) (entryLive : index.graph.EntryLive) :
    ∃ committed, index.commit = .ok committed ∧ committed.Settled (index.outcome holds) ∧
      index.Kin committed := by
  unfold PagedHnswIndex.commit
  dsimp only
  split
  · rename_i idle
    have idle := not_or.mp idle.1
    have inserts : index.pendingInserts = [] := not_not.mp idle.1
    have removes : index.pendingRemoves = [] := not_not.mp idle.2
    have same : index.outcome holds = holds := by
      rw [outcome, inserts, removes]
      rfl
    exact ⟨index, rfl, ⟨by rw [same]; exact stands, inserts, removes, entryLive⟩, rfl, rfl⟩
  · split
    · obtain ⟨graph, live, built, ledger⟩ := stands.build
      rw [built, ok_bind]
      exact ⟨_, rfl, ⟨ledger, rfl, rfl, ledger.entryLive⟩, rfl, rfl⟩
    · have batch : Stands { index with pendingRemoves := [] } holds := stands
      obtain ⟨graph, live, tombstones, removed, ledger⟩ :=
        batch.foldl_applyRemove index.pendingRemoves
      rw [removed]
      dsimp only
      have removedStands : Stands { index with
          graph, live, tombstones, pendingInserts := [], pendingRemoves := [] }
          (index.pendingRemoves.foldl dropped holds) := ledger
      obtain ⟨graphLast, liveLast, tombstonesLast, applied, ledgerLast⟩ :=
        removedStands.foldlM_applyInsert (levelShift index.params.m)
          (maxLevelFor (live.size + index.pendingInserts.length) index.params.m)
          index.pendingInserts
      rw [applied, ok_bind]
      have appliedStands : Stands { index with
          graph := graphLast, live := liveLast, tombstones := tombstonesLast
          pendingInserts := [], pendingRemoves := [] } (index.outcome holds) := ledgerLast
      exact appliedStands.repair rfl rfl

theorem settled_of_commit {done : PagedHnswIndex S} (isCommitted : index.commit = .ok done)
    (stands : index.Stands holds) (entryLive : index.graph.EntryLive) :
    done.Settled (index.outcome holds) := by
  obtain ⟨committed, isDone, settled, -⟩ := stands.commit entryLive
  rw [isDone] at isCommitted
  cases isCommitted
  exact settled

/-! ## What it is told -/

/-- An index between commits: the next commit gives every row what it is due, or inserts a row
of the batch that is due nothing. -/
structure Follows (index : PagedHnswIndex S) (want : RowId -> Option S.Vector) : Prop where
  awaits : ∃ holds, index.Stands holds ∧ ∀ id, index.outcome holds id = want id ∨
    want id = none ∧ id ∈ index.pendingInserts.map Prod.fst
  entryLive : index.graph.EntryLive

/-- No row of the batch is due nothing. -/
def Careful (index : PagedHnswIndex S) (want : RowId -> Option S.Vector) : Prop :=
  ∀ id ∈ index.pendingInserts.map Prod.fst, want id ≠ none

variable {want : RowId -> Option S.Vector} {rows : List (RowId × Embedding)}

theorem Follows.commit (follows : index.Follows want) (careful : index.Careful want) :
    ∃ committed, index.commit = .ok committed ∧ committed.Settled want ∧ index.Kin committed := by
  obtain ⟨⟨holds, stands, awaits⟩, entryLive⟩ := follows
  have same : index.outcome holds = want := by
    funext id
    rcases awaits id with due | ⟨unwanted, queued⟩
    · exact due
    · exact absurd unwanted (careful id queued)
  rw [<- same]
  exact stands.commit entryLive

theorem Settled.follows (settled : index.Settled holds) : index.Follows holds := by
  refine ⟨⟨holds, settled.stands, fun id => .inl ?_⟩, settled.entryLive⟩
  rw [outcome, settled.pendingInserts, settled.pendingRemoves]
  rfl

theorem settled_withParams (dim : Nat) (params : HnswParams) :
    (withParams dim params : PagedHnswIndex S).Settled fun _ => none where
  stands := by
    unfold Stands
    simpa [withParams] using Ledger.empty
  pendingInserts := rfl
  pendingRemoves := rfl
  entryLive := by simp [withParams, Graph.empty, Graph.EntryLive]

theorem Follows.setParams (follows : index.Follows want) (params : HnswParams) :
    (index.setParams params).Follows want :=
  ⟨follows.awaits, follows.entryLive⟩

theorem Follows.insert (follows : index.Follows want) (id : RowId) {embedding : Embedding}
    (fits : embedding.length = index.dim) :
    ∃ told, index.insert id embedding = .ok told ∧ index.Kin told ∧
      told.Follows (recorded want id (S.stored embedding)) := by
  obtain ⟨⟨holds, stands, awaits⟩, entryLive⟩ := follows
  unfold PagedHnswIndex.insert
  rw [if_neg (not_not.mpr fits)]
  refine ⟨_, rfl, ⟨rfl, rfl⟩, ⟨holds, stands, fun other => ?_⟩, entryLive⟩
  simp only [outcome, inserted, foldl_append, foldl_cons, foldl_nil]
  by_cases same : other = id
  · rw [same, recorded_same, recorded_same]
    exact .inl rfl
  · rw [recorded_other _ _ _ _ same, recorded_other _ _ _ _ same]
    rcases awaits other with due | ⟨unwanted, queued⟩
    · exact .inl due
    · exact .inr ⟨unwanted, by rw [map_append]; exact mem_append_left _ queued⟩

theorem inserted_of_absent (absent : id ∉ rows.map Prod.fst) :
    inserted holds rows id = holds id := by
  induction rows generalizing holds with
  | nil => rfl
  | cons row rows ih =>
    obtain ⟨differ, absentRest⟩ := ne_and_not_mem_of_not_mem_cons absent
    rw [inserted, foldl_cons]
    exact (ih absentRest).trans (recorded_other _ _ _ _ differ)

theorem inserted_congr {others : RowId -> Option S.Vector} (agree : holds id = others id) :
    inserted holds rows id = inserted others rows id := by
  induction rows generalizing holds others with
  | nil => exact agree
  | cons row rows ih =>
    apply ih
    dsimp only
    by_cases same : id = row.1
    · rw [same, recorded_same, recorded_same]
    · rw [recorded_other _ _ _ _ same, recorded_other _ _ _ _ same, agree]

theorem Follows.remove (follows : index.Follows want) (id : RowId) :
    (index.remove id).Follows (dropped want id) := by
  obtain ⟨⟨holds, stands, awaits⟩, entryLive⟩ := follows
  refine ⟨⟨holds, stands, fun other => ?_⟩, entryLive⟩
  simp only [outcome, PagedHnswIndex.remove, foldl_append, foldl_cons, foldl_nil]
  by_cases same : other = id
  · rw [same, dropped_same]
    by_cases queued : id ∈ index.pendingInserts.map Prod.fst
    · exact .inr ⟨rfl, queued⟩
    · rw [inserted_of_absent queued, dropped_same]
      exact .inl rfl
  · rw [dropped_other _ _ _ same, inserted_congr (dropped_other _ _ _ same)]
    exact awaits other

theorem Stands.search (stands : index.Stands holds) {query : Embedding} {k ef : Nat}
    {filter : Option RowFilter} {answers : List Scored}
    (searched : index.searchWithEf query k ef filter = .ok answers) :
    ∀ answer ∈ answers, (holds answer.id).isSome := by
  unfold searchWithEf at searched
  split at searched
  · cases searched
  · exact Ledger.search stands searched

end PagedHnswIndex

end InlaySql.Hnsw
