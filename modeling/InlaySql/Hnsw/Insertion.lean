import InlaySql.Hnsw.Walks

/-!
# A row joins the graph

A link of a layer leads to a node that reaches the layer, and the entry point reaches every
layer above the lowest. So no walk meets a node or a layer there is none of, a row can always
be added, and adding it changes the links of the nodes there were and nothing else of them.
-/

namespace InlaySql.Hnsw

open List Option Lib Sql

section Nodes

variable {V : Type} {nodes others : List (Node V)} {layer index : Nat}

/-- There is such a node, and it has links at the layer. -/
def Reaches (nodes : List (Node V)) (layer index : Nat) : Prop :=
  ∃ node, nodes[index]? = some node ∧ layer < node.neighbors.length

theorem Reaches.lt (reaches : Reaches nodes layer index) : index < nodes.length := by
  obtain ⟨node, isNode, -⟩ := reaches
  exact (List.getElem?_eq_some_iff.mp isNode).1

theorem Reaches.lower {below : Nat} (reaches : Reaches nodes layer index)
    (lower : below ≤ layer) : Reaches nodes below index := by
  obtain ⟨node, isNode, tall⟩ := reaches
  exact ⟨node, isNode, by omega⟩

theorem Reaches.append (reaches : Reaches nodes layer index) (more : List (Node V)) :
    Reaches (nodes ++ more) layer index := by
  have inRange := reaches.lt
  obtain ⟨node, isNode, tall⟩ := reaches
  exact ⟨node, by rw [getElem?_append_left inRange, isNode], tall⟩

/-- What linking leaves of a node. -/
def Node.frame (self : Node V) : Entry RowId V × Nat := (self.entry, self.neighbors.length)

@[simp] theorem Node.frame_setLayer (self : Node V) (links : List Nat) :
    (self.setLayer layer links).frame = self.frame := by
  simp [Node.frame, Node.setLayer, Node.entry]

theorem map_frame_modify (nodes : List (Node V)) (index layer : Nat) (links : List Nat) :
    (nodes.modify index (·.setLayer layer links)).map Node.frame = nodes.map Node.frame := by
  apply ext_getElem?
  intro position
  rw [getElem?_map, getElem?_map, List.getElem?_modify]
  cases nodes[position]? with
  | none => rfl
  | some node =>
    by_cases same : index = position
    · simp [same]
    · simp [same]

/-- Which layers a node has does not depend on its links. -/
theorem Reaches.of_frame (reaches : Reaches nodes layer index)
    (framed : others.map Node.frame = nodes.map Node.frame) : Reaches others layer index := by
  obtain ⟨node, isNode, tall⟩ := reaches
  have isFrame : (others.map Node.frame)[index]? = some node.frame := by
    rw [framed, getElem?_map, isNode, map_some]
  rw [getElem?_map, map_eq_some_iff] at isFrame
  obtain ⟨other, isOther, sameFrame⟩ := isFrame
  have sameHeight : other.neighbors.length = node.neighbors.length :=
    congrArg Prod.snd sameFrame
  exact ⟨other, isOther, sameHeight ▸ tall⟩

theorem map_entry_of_frame (framed : others.map Node.frame = nodes.map Node.frame) :
    others.map Node.entry = nodes.map Node.entry := by
  have firsts := congrArg (List.map Prod.fst) framed
  simpa [List.map_map, Function.comp_def, Node.frame] using firsts

/-- A link of a layer leads to a node that reaches the layer. -/
def Linked (nodes : List (Node V)) : Prop :=
  ∀ node layer, ∀ link ∈ neighborsAt nodes node layer, Reaches nodes layer link

variable {links : List Nat}

theorem mem_layer_setLayer {node : Node V} {other link : Nat}
    (isLink : link ∈ (node.setLayer layer links).layer other) :
    (layer = other ∧ link ∈ links) ∨ link ∈ node.layer other := by
  rw [Node.layer, Node.setLayer, getElem?_set] at isLink
  by_cases same : layer = other
  · rw [if_pos same] at isLink
    split at isLink
    · exact .inl ⟨same, isLink⟩
    · cases isLink
  · rw [if_neg same] at isLink
    exact .inr isLink

theorem mem_neighborsAt_modify {node other link : Nat}
    (isLink : link ∈ neighborsAt (nodes.modify index (·.setLayer layer links)) node other) :
    (layer = other ∧ link ∈ links) ∨ link ∈ neighborsAt nodes node other := by
  rw [neighborsAt, List.getElem?_modify] at isLink
  rw [neighborsAt]
  cases isNode : nodes[node]? with
  | none => simp [isNode] at isLink
  | some found =>
    by_cases same : index = node
    · simp only [isNode, Option.map_eq_map, map_some, if_pos same] at isLink
      exact mem_layer_setLayer isLink
    · simp only [isNode, Option.map_eq_map, map_some, if_neg same] at isLink
      exact .inr isLink

/-- Links may be replaced by links to nodes that reach the layer. -/
theorem Linked.modify (linked : Linked nodes) (reach : ∀ link ∈ links, Reaches nodes layer link) :
    Linked (nodes.modify index (·.setLayer layer links)) := by
  intro node other link isLink
  have framed : (nodes.modify index (·.setLayer layer links)).map Node.frame =
      nodes.map Node.frame := map_frame_modify nodes index layer links
  rcases mem_neighborsAt_modify isLink with ⟨rfl, isNew⟩ | isOld
  · exact (reach link isNew).of_frame framed
  · exact (linked node other link isOld).of_frame framed

theorem layer_new (id : RowId) (vector : V) (level other : Nat) :
    (Node.new id vector level).layer other = [] := by
  rw [Node.layer, Node.new, getElem?_replicate]
  split <;> rfl

theorem neighborsAt_append_new (nodes : List (Node V)) (id : RowId) (vector : V)
    (level node other : Nat) :
    neighborsAt (nodes ++ [Node.new id vector level]) node other = neighborsAt nodes node other := by
  rw [neighborsAt, neighborsAt]
  rcases Nat.lt_trichotomy node nodes.length with before | rfl | after
  · rw [getElem?_append_left before]
  · simp [layer_new]
  · rw [getElem?_eq_none (by simp; omega), getElem?_eq_none (by omega)]

theorem Linked.append_new (linked : Linked nodes) (id : RowId) (vector : V) (level : Nat) :
    Linked (nodes ++ [Node.new id vector level]) := by
  intro node other link isLink
  rw [neighborsAt_append_new] at isLink
  exact (linked node other link isLink).append _

theorem reaches_new (nodes : List (Node V)) (id : RowId) (vector : V) (level : Nat) :
    Reaches (nodes ++ [Node.new id vector level]) level nodes.length :=
  ⟨Node.new id vector level, by simp, by simp [Node.new]⟩

end Nodes

variable {S : Space} {nodes : List (Node S.Vector)} {layer entry : Nat}

theorem Linked.leads (linked : Linked nodes) (layer : Nat) :
    Walk.Leads nodes layer (Reaches nodes layer) :=
  fun node _ link isLink => linked node layer link isLink

/-- A search of a layer finds a node, and only nodes that reach the layer. -/
theorem Linked.searchLayer (linked : Linked nodes) (reaches : Reaches nodes layer entry)
    (query : S.Vector) (ef : Nat) :
    ∃ found, searchLayer S nodes query entry ef layer none = .ok found ∧ found ≠ [] ∧
      ∀ candidate ∈ found, Reaches nodes layer candidate.node :=
  searchLayer_unfiltered (linked.leads layer) reaches reaches.lt

theorem reaches_nearestOr {found : List Candidate}
    (reach : ∀ candidate ∈ found, Reaches nodes layer candidate.node)
    (reaches : Reaches nodes layer entry) : Reaches nodes layer (nearestOr entry found) := by
  cases found with
  | nil => exact reaches
  | cons first rest => exact reach first mem_cons_self

/-! ## Choosing links -/

variable {degree : Nat} {selected : List Nat} {link newIndex : Nat} (params : HnswParams)
  (vector : S.Vector)

theorem mem_selectDiverse {candidates : List Candidate}
    (isLink : link ∈ candidates.foldl (selectDiverse S nodes degree) selected) :
    link ∈ selected ∨ ∃ candidate ∈ candidates, candidate.node = link := by
  induction candidates generalizing selected with
  | nil => exact .inl isLink
  | cons candidate candidates ih =>
    rcases ih isLink with before | ⟨other, isOther, same⟩
    · unfold selectDiverse at before
      split at before
      · exact .inl before
      · dsimp only at before
        split at before
        · rcases mem_append.mp before with earlier | here
          · exact .inl earlier
          · exact .inr ⟨candidate, mem_cons_self, (mem_singleton.mp here).symm⟩
        · exact .inl before
    · exact .inr ⟨other, mem_cons_of_mem _ isOther, same⟩

theorem mem_fillUp {candidates : List Candidate}
    (isLink : link ∈ candidates.foldl (fillUp degree) selected) :
    link ∈ selected ∨ ∃ candidate ∈ candidates, candidate.node = link := by
  induction candidates generalizing selected with
  | nil => exact .inl isLink
  | cons candidate candidates ih =>
    rcases ih isLink with before | ⟨other, isOther, same⟩
    · unfold fillUp at before
      split at before
      · exact .inl before
      · rcases mem_append.mp before with earlier | here
        · exact .inl earlier
        · exact .inr ⟨candidate, mem_cons_self, (mem_singleton.mp here).symm⟩
    · exact .inr ⟨other, mem_cons_of_mem _ isOther, same⟩

/-- Neighbours are chosen among the candidates. -/
theorem mem_selectNeighbors {candidates : List Candidate}
    (isLink : link ∈ selectNeighbors S nodes candidates degree) :
    ∃ candidate ∈ candidates, candidate.node = link := by
  rcases mem_fillUp isLink with diverse | filled
  · rcases mem_selectDiverse diverse with none | chosen
    · cases none
    · exact chosen
  · exact filled

/-! ## Linking -/

section

variable (linked : Linked nodes) (reaches : Reaches nodes layer newIndex)

include linked reaches

/-- Linking back keeps every link within its layer. -/
theorem linkBack_keeps (degree neighbor : Nat) :
    (linkBack S newIndex layer degree nodes neighbor).map Node.frame = nodes.map Node.frame ∧
      Linked (linkBack S newIndex layer degree nodes neighbor) := by
  unfold linkBack
  split
  · exact ⟨rfl, linked⟩
  rename_i node isNode
  have reach : ∀ link ∈ node.layer layer ++ [newIndex], Reaches nodes layer link := by
    intro link isLink
    rcases mem_append.mp isLink with before | here
    · refine linked neighbor layer link ?_
      rw [neighborsAt, isNode]
      exact before
    · rw [mem_singleton.mp here]
      exact reaches
  dsimp only
  split
  · exact ⟨map_frame_modify nodes _ _ _, linked.modify reach⟩
  · refine ⟨map_frame_modify nodes _ _ _, linked.modify fun link isLink => ?_⟩
    obtain ⟨candidate, isCandidate, rfl⟩ := mem_selectNeighbors isLink
    rw [mem_mergeSort] at isCandidate
    obtain ⟨other, isOther, made⟩ := mem_filterMap.mp isCandidate
    obtain ⟨found, -, rfl⟩ := map_eq_some_iff.mp made
    exact reach other isOther

theorem foldl_linkBack_keeps (degree : Nat) (neighbors : List Nat) :
    (neighbors.foldl (linkBack S newIndex layer degree) nodes).map Node.frame =
        nodes.map Node.frame ∧
      Linked (neighbors.foldl (linkBack S newIndex layer degree) nodes) := by
  induction neighbors generalizing nodes with
  | nil => exact ⟨rfl, linked⟩
  | cons neighbor neighbors ih =>
    obtain ⟨framed, stillLinked⟩ := linkBack_keeps linked reaches degree neighbor
    obtain ⟨framedRest, linkedRest⟩ := ih stillLinked (reaches.of_frame framed)
    exact ⟨framedRest.trans framed, linkedRest⟩

end

/-- Connecting the new node at a layer succeeds and changes links alone. -/
theorem connect_keeps (linked : Linked nodes) (reachesNew : Reaches nodes layer newIndex)
    (reaches : Reaches nodes layer entry) :
    ∃ after nearest, connect S params vector newIndex (nodes, entry) layer = .ok (after, nearest) ∧
      after.map Node.frame = nodes.map Node.frame ∧ Linked after ∧
      Reaches after layer nearest := by
  obtain ⟨found, searched, -, reach⟩ := linked.searchLayer reaches vector params.efConstruction
  have linkedNew : Linked (nodes.modify newIndex
      (·.setLayer layer (selectNeighbors S nodes found (params.degree layer)))) := by
    refine linked.modify fun link isLink => ?_
    obtain ⟨candidate, isCandidate, rfl⟩ := mem_selectNeighbors isLink
    exact reach candidate isCandidate
  have framedNew := map_frame_modify nodes newIndex layer
    (selectNeighbors S nodes found (params.degree layer))
  obtain ⟨framed, linkedAfter⟩ := foldl_linkBack_keeps linkedNew
    (reachesNew.of_frame framedNew) (params.degree layer)
    (selectNeighbors S nodes found (params.degree layer))
  refine ⟨_, nearestOr entry found, ?_, framed.trans framedNew, linkedAfter, ?_⟩
  · rw [connect]
    dsimp only
    rw [searched, ok_bind]
    rfl
  · exact (reaches_nearestOr reach reaches).of_frame (framed.trans framedNew)

theorem foldlM_connect_keeps (layers : Nat) (linked : Linked nodes)
    (reachesNew : ∀ layer < layers, Reaches nodes layer newIndex)
    (reaches : ∀ layer < layers, Reaches nodes layer entry) :
    ∃ after nearest, (List.range layers).reverse.foldlM (connect S params vector newIndex)
        (nodes, entry) = .ok (after, nearest) ∧
      after.map Node.frame = nodes.map Node.frame ∧ Linked after := by
  induction layers generalizing nodes entry with
  | zero => exact ⟨nodes, entry, rfl, rfl, linked⟩
  | succ layers ih =>
    obtain ⟨middle, nearest, connected, framed, linkedMiddle, reachesNearest⟩ :=
      connect_keeps params vector linked (reachesNew layers (by omega)) (reaches layers (by omega))
    obtain ⟨after, last, rest, framedRest, linkedAfter⟩ := ih linkedMiddle
      (fun layer below => (reachesNew layer (by omega)).of_frame framed)
      (fun layer below => reachesNearest.lower (by omega))
    refine ⟨after, last, ?_, framedRest.trans framed, linkedAfter⟩
    rw [range_succ, reverse_append, reverse_singleton, singleton_append,
      foldlM_cons, connected, ok_bind, rest]

/-- The descent ends at a node that reaches the layer it stops at. -/
theorem descend_reaches (level : Nat) {top : Nat} (linked : Linked nodes)
    (reaches : Reaches nodes top entry) :
    ∃ current nearest, descend S nodes vector level top entry = .ok (current, nearest) ∧
      current ≤ level ∧ current ≤ top ∧ Reaches nodes current nearest := by
  induction top generalizing entry with
  | zero => exact ⟨0, entry, rfl, by omega, by omega, reaches⟩
  | succ top ih =>
    rw [descend]
    split
    · obtain ⟨found, searched, -, reach⟩ := linked.searchLayer reaches vector 1
      obtain ⟨current, nearest, descended, low, lower, reachesNearest⟩ :=
        ih ((reaches_nearestOr reach reaches).lower (by omega))
      rw [searched, ok_bind]
      exact ⟨current, nearest, descended, low, by omega, reachesNearest⟩
    · exact ⟨top + 1, entry, rfl, by omega, by omega, reaches⟩

/-! ## The whole graph -/

/-- What holds of a graph between its changes. -/
structure Graph.Sound (graph : Graph S) : Prop where
  linked : Linked graph.nodes
  tall : ∀ index < graph.nodes.length, Reaches graph.nodes 0 index
  rootless : graph.entry = none -> graph.nodes = []
  rooted : ∀ entry, graph.entry = some entry -> Reaches graph.nodes graph.entryLevel entry

theorem Graph.sound_empty : (Graph.empty S).Sound := by
  refine ⟨fun node layer link isLink => ?_, fun index inRange => ?_, fun _ => rfl,
    fun entry isEntry => ?_⟩
  · simp [neighborsAt, Graph.empty] at isLink
  · simp [Graph.empty] at inRange
  · simp [Graph.empty] at isEntry

theorem Graph.sound_of_rooted {level : Nat} (linked : Linked nodes)
    (tall : ∀ index < nodes.length, Reaches nodes 0 index) (rooted : Reaches nodes level entry) :
    (⟨nodes, some entry, level⟩ : Graph S).Sound where
  linked := linked
  tall := tall
  rootless := by simp
  rooted := by
    rintro _ ⟨⟩
    exact rooted

/-- A row can always be added: its node comes last, and the others stay. -/
theorem Graph.Sound.insertNode {graph : Graph S} (sound : graph.Sound) (params : HnswParams)
    (id : RowId) (vector : S.Vector) (level : Nat) :
    ∃ grown, graph.insertNode params id vector level = .ok (grown, graph.nodes.length) ∧
      grown.nodes.map Node.entry = graph.nodes.map Node.entry ++ [⟨id, vector, false⟩] ∧
      grown.Sound := by
  obtain ⟨linked, tall, rootless, rooted⟩ := sound
  have linkedNew := linked.append_new id vector level
  have tallNew : ∀ index < (graph.nodes ++ [Node.new id vector level]).length,
      Reaches (graph.nodes ++ [Node.new id vector level]) 0 index := by
    intro index inRange
    rw [length_append, length_singleton] at inRange
    rcases Nat.lt_or_ge index graph.nodes.length with before | here
    · exact (tall index before).append _
    · obtain rfl : index = graph.nodes.length := by omega
      exact (reaches_new graph.nodes id vector level).lower (Nat.zero_le _)
  have reachesNew := reaches_new graph.nodes id vector level
  unfold Graph.insertNode
  cases isEntry : graph.entry with
  | none =>
    have empty := rootless isEntry
    refine ⟨⟨graph.nodes ++ [Node.new id vector level], some 0, level⟩, by rw [empty]; rfl, ?_,
      Graph.sound_of_rooted linkedNew tallNew ?_⟩
    · rw [map_append]
      rfl
    · rw [empty] at reachesNew ⊢
      exact reachesNew
  | some entry =>
    obtain ⟨current, nearest, descended, low, lower, reachesNearest⟩ :=
      descend_reaches vector level linked (rooted entry isEntry)
    obtain ⟨after, last, connected, framed, linkedAfter⟩ :=
      foldlM_connect_keeps params vector (current + 1) linkedNew
        (fun layer below => reachesNew.lower (by omega))
        (fun layer below => (reachesNearest.lower (by omega)).append [Node.new id vector level])
    have entries : after.map Node.entry = graph.nodes.map Node.entry ++ [⟨id, vector, false⟩] := by
      rw [map_entry_of_frame framed, map_append]
      rfl
    have length : after.length = (graph.nodes ++ [Node.new id vector level]).length := by
      simpa using congrArg List.length framed
    have tallAfter : ∀ index < after.length, Reaches after 0 index := fun index inRange =>
      (tallNew index (length ▸ inRange)).of_frame framed
    dsimp only
    rw [descended, ok_bind]
    dsimp only
    rw [connected, ok_bind]
    dsimp only
    split
    · exact ⟨⟨after, some graph.nodes.length, level⟩, rfl, entries,
        Graph.sound_of_rooted linkedAfter tallAfter (reachesNew.of_frame framed)⟩
    · exact ⟨⟨after, some entry, graph.entryLevel⟩, rfl, entries,
        Graph.sound_of_rooted linkedAfter tallAfter
          (((rooted entry isEntry).append _).of_frame framed)⟩

end InlaySql.Hnsw
