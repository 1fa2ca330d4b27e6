import InlaySql.Hnsw.Selective

/-!
# What a new node is linked to

Connecting a node at a layer touches the links of that layer only. So the walk that picks the
links of a new node meets nodes that were there before, and finds at least one: on the lowest
layer every new node links to a node there was.
-/

namespace InlaySql.Hnsw

open List Lib Sql

section Nodes

variable {V : Type} {nodes : List (Node V)} {layer index : Nat}

theorem neighborsAt_modify_layer {links : List Nat} {other : Nat} (apart : layer ≠ other)
    (node : Nat) : neighborsAt (nodes.modify index (·.setLayer layer links)) node other =
      neighborsAt nodes node other := by
  rw [neighborsAt, neighborsAt, List.getElem?_modify]
  cases nodes[node]? with
  | none => rfl
  | some found =>
    by_cases same : index = node
    · simp [same, Node.layer, Node.setLayer, getElem?_set_ne apart]
    · simp [same]

theorem neighborsAt_modify_node {links : List Nat} {node : Nat} (apart : index ≠ node)
    (other : Nat) : neighborsAt (nodes.modify index (·.setLayer layer links)) node other =
      neighborsAt nodes node other := by
  rw [neighborsAt, neighborsAt, List.getElem?_modify]
  simp [apart]

theorem neighborsAt_modify (reaches : Reaches nodes layer index) (links : List Nat) :
    neighborsAt (nodes.modify index (·.setLayer layer links)) index layer = links := by
  obtain ⟨node, isNode, tall⟩ := reaches
  rw [neighborsAt, List.getElem?_modify, isNode]
  simp [Node.layer, Node.setLayer, tall]

end Nodes

variable {S : Space} {nodes : List (Node S.Vector)} {layer : Nat}

/-! ## Linking back -/

theorem linkBack_eq_modify (newIndex layer degree : Nat) (nodes : List (Node S.Vector))
    (neighbor : Nat) : linkBack S newIndex layer degree nodes neighbor = nodes ∨
      ∃ links, linkBack S newIndex layer degree nodes neighbor =
        nodes.modify neighbor (·.setLayer layer links) := by
  unfold linkBack
  split
  · exact .inl rfl
  · dsimp only
    split
    · exact .inr ⟨_, rfl⟩
    · exact .inr ⟨_, rfl⟩

theorem foldl_linkBack_frame (newIndex layer degree : Nat) (neighbors : List Nat)
    (nodes : List (Node S.Vector)) :
    (neighbors.foldl (linkBack S newIndex layer degree) nodes).map Node.frame =
      nodes.map Node.frame := by
  induction neighbors generalizing nodes with
  | nil => rfl
  | cons neighbor neighbors ih =>
    rw [foldl_cons, ih]
    rcases linkBack_eq_modify newIndex layer degree nodes neighbor with same | ⟨links, same⟩
    · rw [same]
    · rw [same, map_frame_modify]

theorem neighborsAt_foldl_linkBack {other : Nat} (newIndex layer degree : Nat)
    {neighbors : List Nat} (node : Nat) (apart : layer ≠ other ∨ node ∉ neighbors) :
    neighborsAt (neighbors.foldl (linkBack S newIndex layer degree) nodes) node other =
      neighborsAt nodes node other := by
  induction neighbors generalizing nodes with
  | nil => rfl
  | cons neighbor neighbors ih =>
    rw [foldl_cons, ih (apart.imp_right fun absent member =>
      absent (mem_cons_of_mem _ member))]
    rcases linkBack_eq_modify newIndex layer degree nodes neighbor with same | ⟨links, same⟩
    · rw [same]
    · rw [same]
      rcases apart with otherLayer | absent
      · exact neighborsAt_modify_layer otherLayer node
      · refine neighborsAt_modify_node (fun equal => absent ?_) other
        rw [equal]
        exact mem_cons_self

/-! ## Choosing links -/

theorem length_foldl_fillUp {degree : Nat} (candidates : List Candidate) (selected : List Nat) :
    selected.length ≤ (candidates.foldl (fillUp degree) selected).length := by
  induction candidates generalizing selected with
  | nil => exact Nat.le_refl _
  | cons candidate candidates ih =>
    refine Nat.le_trans ?_ (ih _)
    unfold fillUp
    split
    · exact Nat.le_refl _
    · simp

theorem selectNeighbors_ne_nil {degree : Nat} (positive : 0 < degree)
    {candidates : List Candidate} (found : candidates ≠ []) :
    selectNeighbors S nodes candidates degree ≠ [] := by
  obtain ⟨first, rest, rfl⟩ := exists_cons_of_ne_nil found
  unfold selectNeighbors
  generalize (first :: rest).foldl (selectDiverse S nodes degree) [] = diverse
  intro empty
  have atLeast : (fillUp degree diverse first).length ≤
      (rest.foldl (fillUp degree) (fillUp degree diverse first)).length :=
    length_foldl_fillUp rest _
  rw [foldl_cons] at empty
  rw [empty] at atLeast
  unfold fillUp at atLeast
  split at atLeast
  · rename_i full
    cases diverse with
    | nil =>
      have zero : degree = 0 := by simpa using full
      omega
    | cons kept others => simp at atLeast
  · simp at atLeast

/-! ## Connecting -/

variable {params : HnswParams} {vector : S.Vector} {newIndex entry nearest : Nat}
  {after : List (Node S.Vector)}

theorem connect_eq_ok
    (connected : connect S params vector newIndex (nodes, entry) layer = .ok (after, nearest)) :
    ∃ found, searchLayer S nodes vector entry params.efConstruction layer none = .ok found ∧
      nearest = nearestOr entry found ∧
      after = (selectNeighbors S nodes found (params.degree layer)).foldl
        (linkBack S newIndex layer (params.degree layer))
        (nodes.modify newIndex
          (·.setLayer layer (selectNeighbors S nodes found (params.degree layer)))) := by
  unfold connect at connected
  obtain ⟨found, searched, made⟩ := bind_eq_ok connected
  cases made
  exact ⟨found, searched, rfl, rfl⟩

theorem neighborsAt_connect {other : Nat} (apart : layer ≠ other)
    (connected : connect S params vector newIndex (nodes, entry) layer = .ok (after, nearest))
    (node : Nat) : neighborsAt after node other = neighborsAt nodes node other := by
  obtain ⟨found, -, -, rfl⟩ := connect_eq_ok connected
  rw [neighborsAt_foldl_linkBack newIndex layer _ node (.inl apart), neighborsAt_modify_layer apart]

theorem frame_connect
    (connected : connect S params vector newIndex (nodes, entry) layer = .ok (after, nearest)) :
    after.map Node.frame = nodes.map Node.frame := by
  obtain ⟨found, -, -, rfl⟩ := connect_eq_ok connected
  rw [foldl_linkBack_frame, map_frame_modify]

/-- The links of some layers lead to nodes before the new one. -/
def LinksBefore {V : Type} (nodes : List (Node V)) (newIndex layers : Nat) : Prop :=
  ∀ layer < layers, ∀ node, ∀ link ∈ neighborsAt nodes node layer, link < newIndex

theorem LinksBefore.searchLayer {layers : Nat} (before : LinksBefore nodes newIndex layers)
    (below : layer < layers) (isBefore : entry < newIndex) (isThere : newIndex < nodes.length)
    {ef : Nat} {found : List Candidate}
    (searched : searchLayer S nodes vector entry ef layer none = .ok found) :
    found ≠ [] ∧ ∀ candidate ∈ found, candidate.node < newIndex := by
  have leads : Walk.Leads nodes layer (· < newIndex) :=
    fun node _ link isLink => before layer below node link isLink
  obtain ⟨same, isFound, nonempty, within⟩ : ∃ same,
      Hnsw.searchLayer S nodes vector entry ef layer none = .ok same ∧ same ≠ [] ∧
        ∀ candidate ∈ same, candidate.node < newIndex :=
    searchLayer_unfiltered leads isBefore (isBefore.trans isThere)
  obtain rfl := Except.ok.inj (searched.symm.trans isFound)
  exact ⟨nonempty, within⟩

theorem foldlM_connect_joins (positive : 0 < params.degree 0) (layers : Nat)
    (before : LinksBefore nodes newIndex (layers + 1)) (isBefore : entry < newIndex)
    (reachesNew : Reaches nodes 0 newIndex)
    (connected : (List.range (layers + 1)).reverse.foldlM (connect S params vector newIndex)
      (nodes, entry) = .ok (after, nearest)) :
    ∃ link < newIndex, link ∈ neighborsAt after newIndex 0 := by
  induction layers generalizing nodes entry with
  | zero =>
    rw [range_one, reverse_singleton, foldlM_cons] at connected
    obtain ⟨⟨_, _⟩, first, done⟩ := bind_eq_ok connected
    cases done
    obtain ⟨found, searched, -, rfl⟩ := connect_eq_ok first
    obtain ⟨nonempty, within⟩ :=
      before.searchLayer (Nat.lt_succ_self 0) isBefore reachesNew.lt searched
    have chosen : selectNeighbors S nodes found (params.degree 0) ≠ [] :=
      selectNeighbors_ne_nil positive nonempty
    obtain ⟨link, rest, selected⟩ := exists_cons_of_ne_nil chosen
    have isBeforeNew : ∀ link ∈ selectNeighbors S nodes found (params.degree 0),
        link < newIndex := by
      intro link isLink
      obtain ⟨candidate, isFound, rfl⟩ := mem_selectNeighbors isLink
      exact within candidate isFound
    have isSelected : link ∈ selectNeighbors S nodes found (params.degree 0) := by
      rw [selected]
      exact mem_cons_self
    refine ⟨link, isBeforeNew link isSelected, ?_⟩
    rw [neighborsAt_foldl_linkBack newIndex 0 _ newIndex
      (.inr fun itself => Nat.lt_irrefl _ (isBeforeNew _ itself)), neighborsAt_modify reachesNew]
    exact isSelected
  | succ layers ih =>
    rw [range_succ, reverse_append, reverse_singleton, singleton_append, foldlM_cons] at connected
    obtain ⟨⟨middle, nearer⟩, first, rest⟩ := bind_eq_ok connected
    obtain ⟨found, searched, isNearest, -⟩ := connect_eq_ok first
    obtain ⟨nonempty, within⟩ :=
      before.searchLayer (Nat.lt_succ_self _) isBefore reachesNew.lt searched
    refine ih (fun layer below node link isLink => ?_) ?_
      (reachesNew.of_frame (frame_connect first)) rest
    · rw [neighborsAt_connect (by omega) first] at isLink
      exact before layer (by omega) node link isLink
    · obtain ⟨nearest, others, isFound⟩ := exists_cons_of_ne_nil nonempty
      rw [isNearest, isFound]
      exact within nearest (isFound ▸ mem_cons_self)

theorem Graph.Sound.insertNode_joins {graph grown : Graph S} (sound : graph.Sound)
    (positive : 0 < params.degree 0) {id : RowId} {level position : Nat}
    (nonempty : graph.nodes ≠ [])
    (inserted : graph.insertNode params id vector level = .ok (grown, position)) :
    ∃ link < graph.nodes.length, link ∈ neighborsAt grown.nodes graph.nodes.length 0 := by
  unfold Graph.insertNode at inserted
  cases isEntry : graph.entry with
  | none => exact absurd (sound.rootless isEntry) nonempty
  | some entry =>
    rw [isEntry] at inserted
    dsimp only at inserted
    obtain ⟨⟨current, nearest⟩, descended, rest⟩ := bind_eq_ok inserted
    obtain ⟨⟨after, last⟩, connected, made⟩ := bind_eq_ok rest
    obtain ⟨_, _, sameDescent, -, -, reachesNearest⟩ :=
      descend_reaches vector level sound.linked (sound.rooted entry isEntry)
    cases descended.symm.trans sameDescent
    have isGrown : grown.nodes = after := by
      dsimp only at made
      split at made
      · cases made
        rfl
      · cases made
        rfl
    rw [isGrown]
    refine foldlM_connect_joins positive current (fun layer _ node link isLink => ?_)
      reachesNearest.lt ((reaches_new _ id vector level).lower (Nat.zero_le _)) connected
    rw [neighborsAt_append_new] at isLink
    exact (sound.linked node layer link isLink).lt

end InlaySql.Hnsw
