import InlaySql.Hnsw.MemoryFacts

/-!
# An index that is saved and read back

A save writes the graph and the rows staged beside it, and not what is pending. So an index
comes back as it was when every row registered is in the graph and every live node's row is
registered; staged rows come back queued for nothing, and removed ones come back held.
-/

namespace InlaySql.Hnsw

open List Option Lib Sql

namespace HnswIndex

variable {S : Space} {index : HnswIndex S} {holds : RowId -> Option S.Vector}

/-- Every row registered is in the graph, and every live node's row is registered. -/
def Restorable (index : HnswIndex S) : Prop :=
  ∀ id : RowId, index.rows[id]? = (index.nodeIds[id]?).map fun _ => Held.graph

variable {nodes : List (Node S.Vector)}

theorem foldlM_claimNode {register : RowId -> Option Nat}
    (exact : Entry.Registers (nodes.map Node.entry) register) :
    ∃ nodeIds : Std.ExtTreeMap RowId Nat, nodes.zipIdx.foldlM claimNode (∅, 0) =
        .ok (nodeIds, Entry.marked (nodes.map Node.entry)) ∧
      (nodeIds[·]?) = register := by
  induction nodes using List.reverseRecOn generalizing register with
  | nil =>
    refine ⟨∅, rfl, ?_⟩
    funext id
    cases isLive : register id with
    | none => simp
    | some position =>
      obtain ⟨value, isEntry⟩ := (exact id position).mp isLive
      simp at isEntry
  | append_singleton nodes node ih =>
    rw [map_append, map_singleton] at exact
    obtain ⟨nodeIds, claimed, isRegister⟩ := ih exact.pop
    rw [zipIdx_append, foldlM_append, claimed, ok_bind]
    simp only [zipIdx_singleton, foldlM_cons, foldlM_nil, Nat.zero_add]
    by_cases deleted : node.deleted = true
    · refine ⟨nodeIds, ?_, ?_⟩
      · rw [claimNode, if_pos deleted, ok_bind]
        simp only [Entry.marked, map_append, map_singleton, countP_append,
          countP_singleton, Node.entry, deleted, if_true]
        rfl
      · rw [isRegister]
        funext id
        simp [Node.entry, deleted]
    · have live : node.deleted = false := by simpa using deleted
      have absent : nodeIds[node.id]? = none := by
        rw [congrFun isRegister node.id]
        exact if_pos ⟨live, rfl⟩
      refine ⟨nodeIds.insert node.id nodes.length, ?_, ?_⟩
      · rw [claimNode, if_neg deleted, absent]
        simp [Entry.marked, Node.entry, live]
      · rw [getElem?_insert, isRegister]
        funext id
        by_cases same : id = node.id
        · rw [same, recorded_same]
          refine ((exact node.id nodes.length).mpr ⟨node.vector, ?_⟩).symm
          simp [Node.entry, live]
        · rw [recorded_other _ _ _ _ same]
          exact if_neg fun isLast => same isLast.2

theorem strayLink_none (linked : Linked nodes) : strayLink nodes = none := by
  rw [strayLink, findSome?_eq_none_iff]
  rintro ⟨node, position⟩ isNode
  rw [map_eq_none_iff, find?_eq_none]
  intro link isLink
  obtain ⟨links, isLayer, isLink⟩ := mem_flatten.mp isLink
  obtain ⟨layer, isLayer⟩ := mem_iff_getElem?.mp isLayer
  have reaches := linked position layer link (by
    rw [neighborsAt, mem_zipIdx_iff_getElem?.mp isNode, map_some, getD_some, Node.layer]
    dsimp only at isLayer
    rw [isLayer]
    exact isLink)
  have inRange := reaches.lt
  simpa using inRange

theorem staged_encode (restorable : index.Restorable) : index.encode.staged = [] := by
  rw [encode, filterMap_eq_nil_iff]
  rintro ⟨id, held⟩ isRow
  have isHeld := Std.ExtTreeMap.mem_toList_iff_getElem?_eq_some.mp isRow
  rw [restorable id, map_eq_some_iff] at isHeld
  obtain ⟨_, -, rfl⟩ := isHeld
  rfl

theorem Settled.restorable (settled : index.Settled holds) : index.Restorable := by
  intro id
  rw [settled.rows id]
  have present := Ledger.holds_isSome settled.stands id
  cases isHeld : holds id with
  | none =>
    rw [isHeld, isSome_none] at present
    have absent := isNone_iff_eq_none.mp (isSome_eq_false_iff.mp present.symm)
    rw [absent, map_none, map_none]
  | some vector =>
    rw [isHeld, isSome_some] at present
    obtain ⟨position, isLive⟩ := isSome_iff_exists.mp present.symm
    rw [isLive, map_some, map_some]

theorem Follows.load {want : RowId -> Option S.Vector} (follows : index.Follows want)
    (restorable : index.Restorable) (room : 4 * index.dim ≤ index.encode.size)
    (target : HnswIndex S) (fits : target.dim = index.dim) :
    ∃ loaded, target.load index.encode = .ok loaded ∧ loaded.Settled want ∧
      target.Kin loaded := by
  obtain ⟨⟨holds, stands, awaits⟩, entryLive⟩ := follows
  have same (id : RowId) : want id = holds id := by
    have isAwaited := awaits id
    rw [restorable id] at isAwaited
    cases isLive : index.nodeIds[id]? with
    | none =>
      rw [isLive] at isAwaited
      rw [isAwaited.1, Ledger.holds_eq_none stands isLive]
    | some position =>
      rw [isLive] at isAwaited
      exact isAwaited.1
  obtain ⟨nodeIds, claimed, isRegister⟩ := foldlM_claimNode stands.exact
  have entryChecked : checkEntry index.encode = .ok () := by
    rw [checkEntry, encode]
    dsimp only
    cases isEntry : index.graph.entry with
    | none => rfl
    | some entry =>
      obtain ⟨node, isNode, live⟩ := entryLive entry isEntry
      dsimp only
      rw [isNode]
      simp [live]
  have linksChecked : checkLinks index.encode = .ok () := by
    rw [checkLinks, encode]
    dsimp only
    rw [strayLink_none stands.sound.linked]
  have dimensionChecked : checkDimension index.encode = .ok () :=
    if_neg (by simpa [encode, Nat.mul_comm] using room)
  have decoded : decode index.encode = .ok (restored index.encode nodeIds
      (Entry.marked (index.graph.nodes.map Node.entry))) := by
    rw [decode, dimensionChecked, ok_bind, linksChecked, ok_bind, entryChecked, ok_bind]
    dsimp only [encode]
    rw [claimed, ok_bind]
    rfl
  have noneStaged := staged_encode restorable
  have sameDim : ¬(restored index.encode nodeIds
      (Entry.marked (index.graph.nodes.map Node.entry))).dim ≠ target.dim := not_not.mpr fits.symm
  rw [HnswIndex.load, decoded, ok_bind, if_neg sameDim]
  refine ⟨_, rfl, ⟨⟨⟨?_, ?_, ?_, ?_⟩, ?_, ?_, ?_⟩, fun id => ?_, rfl, rfl, entryLive⟩, fits.symm, rfl⟩
  · exact stands.sound.linked
  · exact stands.sound.tall
  · exact stands.sound.rootless
  · intro entry isEntry
    dsimp only [restored, encode] at isEntry ⊢
    rw [isEntry]
    exact stands.sound.rooted entry isEntry
  · dsimp only [restored]
    rw [isRegister]
    exact stands.exact
  · rfl
  · intro id
    dsimp only [restored]
    rw [isRegister, same id]
    exact stands.held id
  · have isLive := congrFun isRegister id
    dsimp only [restored] at isLive ⊢
    rw [noneStaged, registered, foldl_nil, Std.ExtTreeMap.getElem?_map, isLive, same id]
    cases found : index.nodeIds[id]? with
    | none => rw [Ledger.holds_eq_none stands found, map_none, map_none]
    | some position =>
      obtain ⟨node, -, -, -, isVector⟩ := Ledger.found stands found
      rw [isVector, map_some, map_some]

end HnswIndex

end InlaySql.Hnsw
