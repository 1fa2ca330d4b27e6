import InlaySql.Hnsw.Insertion

/-!
# A graph and its book-keeping

Beside its graph an index keeps where the live node of each row is, and how many nodes are
marked deleted. The two agree with the nodes through every change, and what the graph holds of
a row changes as the change says.
-/

namespace InlaySql.Hnsw

open List Option Lib Sql

variable {S : Space} {graph : Graph S}

/-! ## Marking -/

theorem Graph.entries_mark (graph : Graph S) (index : Nat) :
    (graph.mark index).nodes.map Node.entry =
      (graph.nodes.map Node.entry).modify index Entry.mark := by
  apply ext_getElem?
  intro position
  rw [Graph.mark, getElem?_map, List.getElem?_modify, List.getElem?_modify, getElem?_map]
  cases graph.nodes[position]? with
  | none => rfl
  | some node =>
    by_cases same : index = position
    · simp [same, Node.entry, Entry.mark]
    · simp [same]

theorem neighborsAt_mark (graph : Graph S) (index node layer : Nat) :
    neighborsAt (graph.mark index).nodes node layer = neighborsAt graph.nodes node layer := by
  rw [neighborsAt, neighborsAt, Graph.mark, List.getElem?_modify]
  cases graph.nodes[node]? with
  | none => rfl
  | some found =>
    by_cases same : index = node
    · simp [same, Node.layer]
    · simp [same]

theorem Reaches.mark {layer index : Nat} (reaches : Reaches graph.nodes layer index)
    (position : Nat) : Reaches (graph.mark position).nodes layer index := by
  obtain ⟨node, isNode, tall⟩ := reaches
  by_cases same : position = index
  · exact ⟨{ node with deleted := true }, by simp [Graph.mark, isNode, same], tall⟩
  · exact ⟨node, by simp [Graph.mark, isNode, same], tall⟩

theorem Graph.Sound.mark (sound : graph.Sound) (index : Nat) : (graph.mark index).Sound where
  linked := fun node layer link isLink => by
    rw [neighborsAt_mark] at isLink
    exact (sound.linked node layer link isLink).mark index
  tall := fun position inRange =>
    (sound.tall position (by simpa [Graph.mark] using inRange)).mark index
  rootless := fun none => by
    have empty := sound.rootless none
    simp [Graph.mark, empty]
  rooted := fun entry isEntry => (sound.rooted entry isEntry).mark index

/-! ## The entry point -/

/-- The entry point is a live node. -/
def Graph.EntryLive (graph : Graph S) : Prop :=
  ∀ entry, graph.entry = some entry ->
    ∃ node, graph.nodes[entry]? = some node ∧ node.deleted = false

section Best

variable {V : Type}

variable {best : Option (Nat × Node V)} {nodes : List (Node V)}

section

variable {candidates : List (Node V × Nat)}

theorem foldl_better_some {index : Nat} {node : Node V}
    (found : candidates.foldl better best = some (index, node)) :
    best = some (index, node) ∨ (node, index) ∈ candidates ∧ node.deleted = false := by
  induction candidates generalizing best with
  | nil => exact .inl found
  | cons candidate candidates ih =>
    rcases ih found with chosen | ⟨later, live⟩
    · unfold better at chosen
      split at chosen
      · exact .inl chosen
      · rename_i live
        have here (same : some (candidate.2, candidate.1) = some (index, node)) :
            best = some (index, node) ∨
              (node, index) ∈ candidate :: candidates ∧ node.deleted = false := by
          cases same
          exact .inr ⟨mem_cons_self, by simpa using live⟩
        split at chosen
        · exact here chosen
        · split at chosen
          · exact here chosen
          · exact .inl chosen
    · exact .inr ⟨mem_cons_of_mem _ later, live⟩

theorem foldl_better_none (found : candidates.foldl better best = none) :
    best = none ∧ ∀ candidate ∈ candidates, candidate.1.deleted = true := by
  induction candidates generalizing best with
  | nil => exact ⟨found, by simp⟩
  | cons candidate candidates ih =>
    obtain ⟨chosen, rest⟩ := ih found
    unfold better at chosen
    split at chosen
    · rename_i deleted
      refine ⟨chosen, fun other isOther => ?_⟩
      rcases mem_cons.mp isOther with rfl | later
      · exact deleted
      · exact rest other later
    · split at chosen
      · cases chosen
      · split at chosen <;> cases chosen

end

/-- The entry picked is a live node. -/
theorem bestEntry_some {index : Nat} {node : Node V}
    (found : bestEntry nodes = some (index, node)) :
    nodes[index]? = some node ∧ node.deleted = false := by
  rcases foldl_better_some found with none | ⟨isNode, live⟩
  · cases none
  · exact ⟨mem_zipIdx_iff_getElem?.mp isNode, live⟩

/-- None is picked only when no node is live. -/
theorem bestEntry_none (found : bestEntry nodes = none) : ∀ node ∈ nodes, node.deleted = true := by
  intro node isNode
  obtain ⟨index, isIndex⟩ := mem_iff_getElem?.mp isNode
  exact (foldl_better_none found).2 (node, index) (mem_zipIdx_iff_getElem?.mpr isIndex)

end Best

/-- Picking the entry again leaves the nodes alone and finds a live one. -/
theorem Graph.Sound.repickEntry (sound : graph.Sound)
    (some_live : ∃ node ∈ graph.nodes, node.deleted = false) :
    graph.repickEntry.Sound ∧ graph.repickEntry.EntryLive ∧
      graph.repickEntry.nodes = graph.nodes := by
  unfold Graph.repickEntry
  cases found : bestEntry graph.nodes with
  | none =>
    obtain ⟨node, isNode, live⟩ := some_live
    rw [bestEntry_none found node isNode] at live
    cases live
  | some best =>
    obtain ⟨index, node⟩ := best
    obtain ⟨isNode, live⟩ := bestEntry_some found
    refine ⟨Graph.sound_of_rooted sound.linked sound.tall ?_, ?_, rfl⟩
    · obtain ⟨other, isOther, tall⟩ :=
        sound.tall index (List.getElem?_eq_some_iff.mp isNode).1
      cases isNode.symm.trans isOther
      exact ⟨node, isNode, by dsimp only [Node.level]; omega⟩
    · rintro _ ⟨⟩
      exact ⟨node, isNode, live⟩

/-! ## What is held of each row -/

/-- The value is held under the id from now on. -/
def recorded {V : Type} (holds : RowId -> Option V) (id : RowId) (value : V) : RowId -> Option V :=
  fun other => if other = id then some value else holds other

/-- Nothing is held under the id from now on. -/
def dropped {α : Type} (holds : RowId -> Option α) (id : RowId) : RowId -> Option α :=
  fun other => if other = id then none else holds other

section

variable {V : Type} (holds : RowId -> Option V) (id other : RowId) (value : V)

@[simp] theorem recorded_same : recorded holds id value id = some value := if_pos rfl

theorem recorded_other (differ : other ≠ id) : recorded holds id value other = holds other :=
  if_neg differ

@[simp] theorem dropped_same : dropped holds id id = none := if_pos rfl

theorem dropped_other (differ : other ≠ id) : dropped holds id other = holds other :=
  if_neg differ

@[simp] theorem recorded_dropped :
    recorded (dropped holds id) id value = recorded holds id value := by
  funext other
  by_cases same : other = id
  · rw [same, recorded_same, recorded_same]
  · rw [recorded_other _ _ _ _ same, recorded_other _ _ _ _ same, dropped_other _ _ _ same]

theorem dropped_of_none (absent : holds id = none) : dropped holds id = holds := by
  funext other
  by_cases same : other = id
  · rw [same, dropped_same, absent]
  · rw [dropped_other _ _ _ same]

end

variable {V : Type} {rows : List (RowId × V)} {α : Type}

theorem foldl_recorded_of_absent {id : RowId} (absent : ∀ row ∈ rows, row.1 ≠ id)
    (holds : RowId -> Option V) :
    rows.foldl (fun holds row => recorded holds row.1 row.2) holds id = holds id := by
  induction rows generalizing holds with
  | nil => rfl
  | cons row rows ih =>
    rw [foldl_cons, ih fun other isOther => absent other (mem_cons_of_mem _ isOther),
      recorded_other _ _ _ _ (absent row mem_cons_self).symm]

theorem foldl_recorded_of_mem {row : RowId × V}
    (distinct : rows.Pairwise fun first second => first.1 ≠ second.1) (isRow : row ∈ rows)
    (holds : RowId -> Option V) :
    rows.foldl (fun holds row => recorded holds row.1 row.2) holds row.1 = some row.2 := by
  induction rows generalizing holds with
  | nil => cases isRow
  | cons first rows ih =>
    obtain ⟨unlike, distinctRest⟩ := pairwise_cons.mp distinct
    rw [foldl_cons]
    rcases mem_cons.mp isRow with rfl | later
    · rw [foldl_recorded_of_absent fun other isOther => (unlike other isOther).symm, recorded_same]
    · exact ih distinctRest later _

/-- Recording rows of distinct ids one by one gives the map they spell. -/
theorem foldl_recorded_eq {want : RowId -> Option V}
    (distinct : rows.Pairwise fun first second => first.1 ≠ second.1)
    (wanted : ∀ id value, (id, value) ∈ rows ↔ want id = some value) :
    rows.foldl (fun holds row => recorded holds row.1 row.2) (fun _ => none) = want := by
  funext id
  cases isWanted : want id with
  | none =>
    apply foldl_recorded_of_absent
    rintro ⟨other, value⟩ isRow rfl
    rw [(wanted other value).mp isRow] at isWanted
    cases isWanted
  | some value => exact foldl_recorded_of_mem distinct ((wanted id value).mpr isWanted) _

theorem distinct_toList (rows : Std.ExtTreeMap RowId α) :
    rows.toList.Pairwise fun first second => first.1 ≠ second.1 := by
  refine rows.distinct_keys_toList.imp fun differ same => differ ?_
  rw [same]
  exact Std.ReflCmp.compare_self

section

variable (map : Std.ExtTreeMap RowId α) (id : RowId)

include map id

theorem getElem?_erase : (fun other => (map.erase id)[other]?) = dropped (map[·]?) id := by
  funext other
  simp only [Std.ExtTreeMap.getElem?_erase, Std.LawfulEqCmp.compare_eq_iff_eq, dropped,
    eq_comm (a := id)]

theorem getElem?_insert (value : α) :
    (fun other => (map.insert id value)[other]?) = recorded (map[·]?) id value := by
  funext other
  simp only [Std.ExtTreeMap.getElem?_insert, Std.LawfulEqCmp.compare_eq_iff_eq, recorded,
    eq_comm (a := id)]

end

/-! ## The ledger -/

/-- The register, the count of deleted nodes and what is held of each row, as the nodes have
them. -/
structure Ledger (graph : Graph S) (register : RowId -> Option Nat) (tombstones : Nat)
    (holds : RowId -> Option S.Vector) : Prop where
  sound : graph.Sound
  exact : Entry.Registers (graph.nodes.map Node.entry) register
  counted : tombstones = Entry.marked (graph.nodes.map Node.entry)
  held : ∀ id, Entry.held (graph.nodes.map Node.entry) register id = holds id

namespace Ledger

variable {register : RowId -> Option Nat} {tombstones : Nat} {holds : RowId -> Option S.Vector}
  {id : RowId} {index : Nat}

theorem empty : Ledger (Graph.empty S) (fun _ => none) 0 fun _ => none where
  sound := Graph.sound_empty
  exact := Entry.registers_nil
  counted := rfl
  held := fun _ => rfl

section

variable (ledger : Ledger graph register tombstones holds)

include ledger

theorem found (isLive : register id = some index) :
    ∃ node, graph.nodes[index]? = some node ∧ node.id = id ∧ node.deleted = false ∧
      holds id = some node.vector := by
  obtain ⟨value, isEntry⟩ := (ledger.exact id index).mp isLive
  have isHeld := ledger.held id
  rw [Entry.held, isLive, bind_some, isEntry, map_some] at isHeld
  rw [getElem?_map, map_eq_some_iff] at isEntry
  obtain ⟨node, isNode, same⟩ := isEntry
  have sameValue : node.vector = value := congrArg Entry.value same
  exact ⟨node, isNode, congrArg Entry.id same, congrArg Entry.deleted same,
    by rw [sameValue]; exact isHeld.symm⟩

/-- A row has a live node when the index holds a vector of it. -/
theorem holds_isSome (id : RowId) : (holds id).isSome = (register id).isSome := by
  rw [<- ledger.held id, ledger.exact.held_isSome]

theorem holds_eq_none (absent : register id = none) : holds id = none := by
  have same := ledger.holds_isSome id
  rw [absent, isSome_none] at same
  exact isNone_iff_eq_none.mp (isSome_eq_false_iff.mp same)

theorem register_eq_none (absent : holds id = none) : register id = none := by
  have same := ledger.holds_isSome id
  rw [absent, isSome_none] at same
  exact isNone_iff_eq_none.mp (isSome_eq_false_iff.mp same.symm)

theorem register_of_live {node : Node S.Vector} (isNode : graph.nodes[index]? = some node)
    (live : node.deleted = false) :
    register node.id = some index := by
  refine (ledger.exact node.id index).mpr ⟨node.vector, ?_⟩
  rw [getElem?_map, isNode, map_some, Node.entry, live]

/-- Marking the node of a row takes the row out and counts the node. -/
theorem mark (isLive : register id = some index) :
    Ledger (graph.mark index) (dropped register id) (tombstones + 1) (dropped holds id) := by
  obtain ⟨value, isEntry⟩ := (ledger.exact id index).mp isLive
  refine ⟨ledger.sound.mark index, ?_, ?_, fun other => ?_⟩
  · rw [Graph.entries_mark]
    exact ledger.exact.mark isLive
  · rw [Graph.entries_mark, Entry.marked_modify isEntry rfl, ledger.counted]
  · rw [Graph.entries_mark, <- funext ledger.held]
    exact ledger.exact.held_mark isLive other

/-- A new row gets the next node. -/
theorem insertNode (absent : register id = none) (params : HnswParams) (vector : S.Vector)
    (level : Nat) :
    ∃ grown, graph.insertNode params id vector level = .ok (grown, graph.nodes.length) ∧
      Ledger grown (recorded register id graph.nodes.length) tombstones
        (recorded holds id vector) := by
  obtain ⟨grown, inserted, entries, sound⟩ := ledger.sound.insertNode params id vector level
  have length : (graph.nodes.map Node.entry).length = graph.nodes.length := length_map _
  refine ⟨grown, inserted, ⟨sound, ?_, ?_, fun other => ?_⟩⟩
  · rw [entries, <- length]
    exact ledger.exact.push absent vector
  · rw [entries, Entry.marked_push]
    exact ledger.counted
  · rw [entries, <- length, <- funext ledger.held]
    exact ledger.exact.held_push vector other

end

theorem entryLive (ledger : Ledger graph register 0 holds) : graph.EntryLive := by
  intro entry isEntry
  obtain ⟨node, isNode, -⟩ := ledger.sound.rooted entry isEntry
  refine ⟨node, isNode, ?_⟩
  have none_marked := ledger.counted.symm
  rw [Entry.marked, countP_eq_zero] at none_marked
  have live := none_marked node.entry (List.mem_map_of_mem (mem_of_getElem? isNode))
  simpa [Node.entry] using live

section

variable (ledger : Ledger graph register tombstones holds)

include ledger

theorem exists_live (fewer : tombstones < graph.nodes.length) :
    ∃ node ∈ graph.nodes, node.deleted = false := by
  by_contra none_live
  have all : ∀ entry ∈ graph.nodes.map Node.entry, entry.deleted = true := by
    intro entry isEntry
    obtain ⟨node, isNode, rfl⟩ := List.mem_map.mp isEntry
    by_contra live
    exact none_live ⟨node, isNode, by simpa [Node.entry] using live⟩
  have marked := ledger.counted
  rw [Entry.marked, countP_eq_length.mpr all, length_map] at marked
  omega

theorem live_rows (id : RowId) :
    (graph.nodes.filter fun node => !node.deleted && decide (node.id = id)).map Node.vector =
      (holds id).toList := by
  have live := ledger.exact.filter_live id
  rw [List.filter_map, List.map_map, ledger.held id] at live
  exact live

theorem tombstones_eq : tombstones = graph.nodes.countP Node.deleted := by
  rw [ledger.counted, Entry.marked, countP_map]
  rfl

/-- With a live node left, the entry picked again is live. -/
theorem repickEntry (fewer : tombstones < graph.nodes.length) :
    Ledger graph.repickEntry register tombstones holds ∧ graph.repickEntry.EntryLive := by
  obtain ⟨sound, live, nodes⟩ := ledger.sound.repickEntry (ledger.exists_live fewer)
  refine ⟨⟨sound, ?_, ?_, ?_⟩, live⟩
  · rw [nodes]
    exact ledger.exact
  · rw [nodes]
    exact ledger.counted
  · rw [nodes]
    exact ledger.held

/-- A search answers with rows the index holds. -/
theorem search {query : Embedding} {k ef : Nat} {filter : Option RowFilter} {answers : List Scored}
    (searched : graph.search query k ef filter = .ok answers) :
    ∀ answer ∈ answers, (holds answer.id).isSome := by
  intro answer isAnswer
  unfold Graph.search at searched
  split at searched
  · cases searched
    cases isAnswer
  · split at searched
    · cases searched
      cases isAnswer
    · obtain ⟨entry, -, searched⟩ := bind_eq_ok searched
      obtain ⟨hits, -, searched⟩ := bind_eq_ok searched
      cases searched
      obtain ⟨hit, -, isHit⟩ := mem_filterMap.mp (mem_of_mem_take isAnswer)
      split at isHit
      · rename_i node isNode
        split at isHit
        · cases isHit
        · rename_i live
          cases isHit
          rw [ledger.holds_isSome,
            ledger.register_of_live isNode (Bool.eq_false_iff.mpr live), isSome_some]
      · cases isHit

end

end Ledger

end InlaySql.Hnsw
