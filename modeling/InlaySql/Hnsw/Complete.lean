import InlaySql.Hnsw.Joining
import InlaySql.Hnsw.MemoryFacts

/-!
# A search under a selective filter

The filter admits fewer rows than the beam is wide. What such a search answers are the admitted
rows that the links of the lowest layer lead to from where its descent ends. So searches miss
nothing exactly when those links lead to every live node, as they do if every node leads to
every other.
-/

namespace InlaySql.Hnsw

open List Lib Sql Relation

variable {S : Space} {nodes : List (Node S.Vector)} {query : S.Vector} {accept : RowId -> Bool}

/-! ## A layer -/

theorem transCmp_compare [Std.TransCmp S.compare] : Std.TransCmp (Candidate.compare S) := by
  have byDistance : Std.TransCmp fun left right : Candidate =>
      S.compare left.distance right.distance :=
    { eq_swap := Std.OrientedCmp.eq_swap, isLE_trans := Std.TransCmp.isLE_trans }
  exact inferInstanceAs (Std.TransCmp (compareLex
    (fun left right : Candidate => S.compare left.distance right.distance)
    (compareOn Candidate.node)))

/-- The nodes of a layer found by a walk under a selective filter: the admitted ones that the
start leads to, nearest first. -/
theorem searchLayer_selective [Std.TransCmp S.compare] (linked : Linked nodes) {entry ef : Nat}
    (layer : Nat) (inRange : entry < nodes.length)
    (few : nodes.countP (·.answers accept) < ef) :
    ∃ found, searchLayer S nodes query entry ef layer (some (.ofBool accept)) = .ok found ∧
      found.Nodup ∧
      (∀ candidate, candidate ∈ found ↔ ReflTransGen (Links nodes layer) entry candidate.node ∧
          candidate ∈ candidates S nodes query accept) ∧
      found.Pairwise fun left right => (S.compare left.distance right.distance).isLE := by
  have isNode := getElem?_eq_getElem inRange
  have unmet : Walk.Open S nodes query accept ⟨List.replicate nodes.length false, [], []⟩ := by
    refine ⟨by simp, nodup_nil, fun candidate => ?_⟩
    simp [Walk.Seen, getElem?_replicate]
  have isUnseen : (List.replicate nodes.length false)[entry]? = some false := by
    simp [inRange]
  have isOpen := unmet.meet isNode isUnseen [⟨S.distance query nodes[entry].vector, entry⟩]
  obtain ⟨walk, isWalk⟩ : ∃ walk : Walk, walk = ⟨(List.replicate nodes.length false).set entry true,
        [⟨S.distance query nodes[entry].vector, entry⟩],
        if nodes[entry].answers accept then [⟨S.distance query nodes[entry].vector, entry⟩]
        else []⟩ := ⟨_, rfl⟩
  have seen : walk.Seen = (· = entry) := by
    funext node
    rw [isWalk, Walk.Seen, Walk.getElem?_set_true (by simpa using inRange)]
    simp [getElem?_replicate]
  have pending : walk.Pending = (· = entry) := by
    funext node
    rw [isWalk, Walk.Pending]
    simp only [mem_singleton, exists_eq_left]
    exact propext eq_comm
  have visited : Visited (Links nodes layer) entry walk.Seen walk.Pending := by
    rw [seen, pending]
    exact Visited.begin _ _
  have enough : walk.left ≤ nodes.length + 1 := by
    rw [isWalk, Walk.start_left inRange]
    omega
  rw [<- isWalk] at isOpen
  have wide : nodes.countP (·.answers accept) < max ef 1 := by omega
  obtain ⟨final, ran, isOpenFinal, seenFinal⟩ := isOpen.run wide linked visited
    (fun node waits => by rw [seen]; rwa [pending] at waits) enough
  have ordered : Std.TransCmp (Candidate.compare S) := transCmp_compare
  refine ⟨final.results.mergeSort fun left right => (left.compare S right).isLE, ?_, ?_,
    fun candidate => ?_, ?_⟩
  · rw [searchLayer, isNode]
    dsimp only
    rw [admits_ofBool, ok_bind, <- isWalk, ran, ok_bind]
    rfl
  · exact (mergeSort_perm _ _).nodup_iff.mpr isOpenFinal.nodup
  · rw [mem_mergeSort, isOpenFinal.results, seenFinal]
  · have sorted : (final.results.mergeSort fun left right =>
        (left.compare S right).isLE).Pairwise fun left right => (left.compare S right).isLE := by
      apply List.pairwise_mergeSort
      · intro low mid high
        exact ordered.isLE_trans
      · intro left right
        have swapped : right.compare S left = (left.compare S right).swap := ordered.eq_swap
        cases told : left.compare S right <;> simp [swapped, told]
    exact sorted.imp Ordering.isLE_left_of_isLE_then

/-! ## A search -/

theorem descendTo_reaches (query : S.Vector) {layer entry : Nat} (linked : Linked nodes)
    (reaches : Reaches nodes layer entry) :
    ∃ base, descendTo nodes query layer entry = .ok base ∧ Reaches nodes 0 base := by
  induction layer generalizing entry with
  | zero => exact ⟨entry, rfl, reaches⟩
  | succ layer ih =>
    obtain ⟨found, searched, -, reach⟩ := linked.searchLayer reaches query 1
    obtain ⟨base, descended, reachesBase⟩ :=
      ih ((reaches_nearestOr reach reaches).lower (Nat.le_succ layer))
    rw [descendTo, searched, ok_bind]
    exact ⟨base, descended, reachesBase⟩

/-- The admitted live rows, each with its distance. -/
def answerable (S : Space) (nodes : List (Node S.Vector)) (query : S.Vector)
    (accept : RowId -> Bool) : List (RowId × UInt32) :=
  (nodes.filter (·.answers accept)).map fun node => (node.id, S.distance query node.vector)

/-- The row of a candidate. -/
def rowOf {V : Type} (nodes : List (Node V)) (candidate : Candidate) : Option (RowId × UInt32) :=
  (nodes[candidate.node]?).map fun node => (node.id, candidate.distance)

theorem filterMap_rowOf_candidates :
    (candidates S nodes query accept).filterMap (rowOf nodes) = answerable S nodes query accept := by
  have atPosition (part : List (Node S.Vector)) (start : Nat)
      (isPart : ∀ index node, part[index]? = some node -> nodes[start + index]? = some node) :
      ((part.zipIdx start).filterMap fun node =>
        if node.1.answers accept then
          some (⟨S.distance query node.1.vector, node.2⟩ : Candidate) else none).filterMap
            (rowOf nodes) =
        (part.filter (·.answers accept)).map fun node =>
          (node.id, S.distance query node.vector) := by
    induction part generalizing start with
    | nil => rfl
    | cons node part ih =>
      have isFirst := isPart 0 node rfl
      have rest := ih (start + 1) fun index other isOther => by
        have isLater := isPart (index + 1) other (by simpa using isOther)
        rwa [show start + 1 + index = start + (index + 1) by omega]
      rw [zipIdx_cons, filterMap_cons, filter_cons]
      by_cases answers : node.answers accept = true
      · simp only [answers, if_true, filterMap_cons, map_cons, rest]
        simp only [rowOf]
        rw [show nodes[start]? = some node from isFirst]
        rfl
      · simp only [answers, Bool.false_eq_true, if_false, rest]
  exact atPosition nodes 0 fun index node isNode => by simpa using isNode

theorem filterMap_answers {hits : List Candidate}
    (live : ∀ hit ∈ hits, ∃ node, nodes[hit.node]? = some node ∧ node.deleted = false) :
    (hits.filterMap fun hit =>
      match nodes[hit.node]? with
      | some node => if node.deleted then none else some (⟨node.id, S.score hit.distance⟩ : Scored)
      | none => none) =
    (hits.filterMap (rowOf nodes)).map fun row => ⟨row.1, S.score row.2⟩ := by
  rw [map_filterMap]
  refine filterMap_congr fun hit isHit => ?_
  obtain ⟨node, isNode, isLive⟩ := live hit isHit
  simp [rowOf, isNode, isLive]

/-- Every node leads to every other by links of the lowest layer. -/
def Connected {V : Type} (nodes : List (Node V)) : Prop :=
  Mutual (Links nodes 0) (· < nodes.length)

/-- A search of a graph under a selective filter: of the admitted live rows it answers those
that the end of its descent leads to, nearest first. -/
theorem Graph.Sound.search_selective [Std.TransCmp S.compare] {graph : Graph S}
    (sound : graph.Sound) {entry ef : Nat} (isEntry : graph.entry = some entry)
    (query : Embedding) (few : graph.nodes.countP (·.answers accept) < ef) :
    ∃ (base : Nat) (found : List Candidate), descendTo graph.nodes (S.query query) graph.entryLevel entry = .ok base ∧
      base < graph.nodes.length ∧ found.Nodup ∧
      (∀ candidate, candidate ∈ found ↔ ReflTransGen (Links graph.nodes 0) base candidate.node ∧
          candidate ∈ candidates S graph.nodes (S.query query) accept) ∧
      (found.Pairwise fun left right => (S.compare left.distance right.distance).isLE) ∧
      ∀ k, graph.search query k ef (some (.ofBool accept)) =
        .ok (((found.filterMap (rowOf graph.nodes)).map fun row =>
          ⟨row.1, S.score row.2⟩).take k) := by
  obtain ⟨base, descended, reaches⟩ :=
    descendTo_reaches (S.query query) sound.linked (sound.rooted entry isEntry)
  obtain ⟨found, searched, distinct, exact, sorted⟩ :=
    searchLayer_selective sound.linked 0 reaches.lt few
  refine ⟨base, found, descended, reaches.lt, distinct, exact, sorted, fun k => ?_⟩
  have live : ∀ hit ∈ found, ∃ node, graph.nodes[hit.node]? = some node ∧ node.deleted = false := by
    intro hit isHit
    obtain ⟨node, isNode, answers, -⟩ := mem_candidates.mp ((exact hit).mp isHit).2
    refine ⟨node, isNode, ?_⟩
    unfold Node.answers at answers
    simpa using (Bool.and_eq_true_iff.mp answers).1
  rw [Graph.search, isEntry]
  dsimp only
  by_cases none_asked : k = 0
  · rw [if_pos none_asked, none_asked, take_zero]
  · rw [if_neg none_asked, descended, ok_bind, searched, ok_bind]
    exact congrArg (fun answers : List Scored => Except.ok (answers.take k)) (filterMap_answers live)

namespace HnswIndex

/-- A search under any filter that admits fewer live rows than the beam is wide answers all of
them, nearest first, up to `k`. -/
def MissesNothing (index : HnswIndex S) : Prop :=
  ∀ (query : Embedding) (k ef : Nat) (accept : RowId -> Bool), query.length = index.dim ->
    index.graph.nodes.countP (·.answers accept) < ef ->
      ∃ ranking : List (RowId × UInt32),
        ranking.Perm (answerable S index.graph.nodes (S.query query) accept) ∧
        (ranking.Pairwise fun left right => (S.compare left.2 right.2).isLE) ∧
        index.searchWithEf query k ef (some (.ofBool accept)) =
          .ok ((ranking.map fun row => ⟨row.1, S.score row.2⟩).take k)

/-- From where the descent of any query ends, links of the lowest layer lead to every live node. -/
def LeadsEverywhere (index : HnswIndex S) : Prop :=
  ∀ (query : Embedding) (entry base : Nat), query.length = index.dim ->
    index.graph.entry = some entry ->
    descendTo index.graph.nodes (S.query query) index.graph.entryLevel entry = .ok base ->
      ∀ (position : Nat) (node : Node S.Vector), index.graph.nodes[position]? = some node ->
        node.deleted = false -> ReflTransGen (Links index.graph.nodes 0) base position

section

variable [Std.TransCmp S.compare] {index : HnswIndex S} (sound : index.graph.Sound)

include sound

theorem missesNothing_of_leadsEverywhere (leads : index.LeadsEverywhere) : index.MissesNothing := by
  intro query k ef accept fits few
  rw [searchWithEf, if_neg (not_not.mpr fits)]
  cases isEntry : index.graph.entry with
  | none =>
    refine ⟨[], ?_, List.Pairwise.nil, ?_⟩
    · rw [sound.rootless isEntry]
      exact List.Perm.refl _
    · simp [Graph.search, isEntry]
  | some entry =>
    obtain ⟨base, found, descended, inRange, distinct, exact, sorted, searched⟩ :=
      sound.search_selective isEntry query few
    have all : found.Perm (candidates S index.graph.nodes (S.query query) accept) := by
      refine (perm_ext_iff_of_nodup distinct nodup_candidates).mpr fun candidate => ?_
      rw [exact]
      refine and_iff_right_of_imp fun isCandidate => ?_
      obtain ⟨node, isNode, answers, -⟩ := mem_candidates.mp isCandidate
      unfold Node.answers at answers
      exact leads query entry base fits isEntry descended _ node isNode
        (by simpa using (Bool.and_eq_true_iff.mp answers).1)
    refine ⟨found.filterMap (rowOf index.graph.nodes), ?_, ?_, searched k⟩
    · rw [<- filterMap_rowOf_candidates]
      exact all.filterMap _
    · refine List.Pairwise.filterMap _ ?_ sorted
      intro left right low first isFirst second isSecond
      obtain ⟨_, -, rfl⟩ := Option.map_eq_some_iff.mp isFirst
      obtain ⟨_, -, rfl⟩ := Option.map_eq_some_iff.mp isSecond
      exact low

/-- A live node that the links do not lead to is missed by the search that admits its row alone. -/
theorem leadsEverywhere_of_missesNothing (complete : index.MissesNothing) :
    index.LeadsEverywhere := by
  intro query entry base fits isEntry descended position node isNode live
  obtain ⟨_, found, descendedToo, -, distinct, exact, -, searched⟩ := sound.search_selective isEntry
    query (Nat.lt_succ_self (index.graph.nodes.countP (·.answers (· == node.id))))
  cases descended.symm.trans descendedToo
  obtain ⟨ranking, all, -, answered⟩ := complete query
    (index.graph.nodes.countP (·.answers (· == node.id))) _ (· == node.id) fits
    (Nat.lt_succ_self _)
  have every : ranking.length = index.graph.nodes.countP (·.answers (· == node.id)) := by
    rw [all.length_eq, answerable, length_map, <- countP_eq_length_filter]
  rw [searchWithEf, if_neg (not_not.mpr fits), searched] at answered
  have lengths := congrArg List.length (Except.ok.inj answered)
  rw [length_take, length_take, length_map, length_map, every, Nat.min_self] at lengths
  have few := length_filterMap_le (rowOf index.graph.nodes) found
  have isAll := (distinct.subperm fun candidate isFound => ((exact candidate).mp isFound).2).perm_of_length_le
    (by rw [length_candidates]; omega)
  have isCandidate : ⟨S.distance (S.query query) node.vector, position⟩ ∈
      candidates S index.graph.nodes (S.query query) (· == node.id) :=
    mem_candidates.mpr ⟨node, isNode, by simp [Node.answers, live], rfl⟩
  exact ((exact _).mp (isAll.mem_iff.mpr isCandidate)).1

omit [Std.TransCmp S.compare] in
theorem leadsEverywhere_of_connected (connected : Connected index.graph.nodes) :
    index.LeadsEverywhere := by
  intro query entry base _ isEntry descended position node isNode _
  obtain ⟨_, descendedToo, reaches⟩ :=
    descendTo_reaches (S.query query) sound.linked (sound.rooted entry isEntry)
  cases descended.symm.trans descendedToo
  exact connected base reaches.lt position (List.getElem?_eq_some_iff.mp isNode).1

end

end HnswIndex

end InlaySql.Hnsw
