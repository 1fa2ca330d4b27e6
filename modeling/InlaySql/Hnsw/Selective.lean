import InlaySql.Hnsw.Ledger
import InlaySql.Lib.Exploration

/-!
# A walk under a selective filter

While fewer rows are admitted than the beam is wide, the beam never fills: every node met is
expanded, every admitted one is kept, and the walk ends when no node is left to expand. So it
finds what the links of the layer lead to from its start, and nothing of it is missed.
-/

namespace InlaySql.Hnsw

open List Lib Sql Relation

variable {S : Space} {nodes : List (Node S.Vector)} {query : S.Vector} {accept : RowId -> Bool}

/-- A filter that does not fail. -/
def RowFilter.ofBool (accept : RowId -> Bool) : RowFilter := fun id => .ok (accept id)

/-- A live node of a row that is admitted. -/
def Node.answers {V : Type} (accept : RowId -> Bool) (node : Node V) : Bool :=
  !node.deleted && accept node.id

theorem admits_ofBool {V : Type} (accept : RowId -> Bool) (node : Node V) :
    admits (some (.ofBool accept)) node = .ok (node.answers accept) := by
  unfold admits Node.answers RowFilter.ofBool
  cases node.deleted <;> rfl

/-- The admitted live nodes, each with its distance. -/
def candidates (S : Space) (nodes : List (Node S.Vector)) (query : S.Vector)
    (accept : RowId -> Bool) : List Candidate :=
  nodes.zipIdx.filterMap fun node =>
    if node.1.answers accept then some ⟨S.distance query node.1.vector, node.2⟩ else none

theorem mem_candidates {candidate : Candidate} : candidate ∈ candidates S nodes query accept ↔
      ∃ node, nodes[candidate.node]? = some node ∧ node.answers accept ∧
        candidate.distance = S.distance query node.vector := by
  rw [candidates, mem_filterMap]
  constructor
  · rintro ⟨⟨node, position⟩, isNode, made⟩
    rw [mem_zipIdx_iff_getElem?] at isNode
    dsimp only at isNode made
    split at made
    · rename_i answers
      cases made
      exact ⟨node, isNode, answers, rfl⟩
    · cases made
  · rintro ⟨node, isNode, answers, isDistance⟩
    refine ⟨(node, candidate.node), mem_zipIdx_iff_getElem?.mpr isNode, ?_⟩
    dsimp only
    rw [if_pos answers, <- isDistance]

theorem length_candidates :
    (candidates S nodes query accept).length = nodes.countP (·.answers accept) := by
  unfold candidates
  generalize 0 = start
  induction nodes generalizing start with
  | nil => rfl
  | cons node nodes ih =>
    rw [zipIdx_cons, filterMap_cons, countP_cons, <- ih (start + 1)]
    by_cases answers : node.answers accept = true
    · simp [answers]
    · simp [answers]

theorem nodup_candidates : (candidates S nodes query accept).Nodup := by
  have distinct : (nodes.zipIdx.map Prod.snd).Nodup := by
    rw [zipIdx_map_snd]
    exact nodup_range'
  refine List.Pairwise.filterMap _ ?_ (pairwise_map.mp distinct)
  intro left right differ first isFirst second isSecond same
  subst same
  split at isFirst
  · split at isSecond
    · exact differ (congrArg Candidate.node
        ((Option.some.inj isFirst).trans (Option.some.inj isSecond).symm))
    · cases isSecond
  · cases isFirst

/-- There is a link of the layer from one node to another. -/
def Links {V : Type} (nodes : List (Node V)) (layer node link : Nat) : Prop :=
  link ∈ neighborsAt nodes node layer

namespace Walk

variable {ef : Nat} {walk : Walk}

def Seen (walk : Walk) (node : Nat) : Prop := walk.seen[node]? = some true

def Pending (walk : Walk) (node : Nat) : Prop := ∃ candidate ∈ walk.frontier, candidate.node = node

/-- The walk has kept every admitted node it has seen. -/
structure Open (S : Space) (nodes : List (Node S.Vector)) (query : S.Vector)
    (accept : RowId -> Bool) (walk : Walk) : Prop where
  length : walk.seen.length = nodes.length
  nodup : walk.results.Nodup
  results : ∀ candidate, candidate ∈ walk.results ↔
    walk.Seen candidate.node ∧ candidate ∈ candidates S nodes query accept

theorem Open.length_results (isOpen : walk.Open S nodes query accept) :
    walk.results.length ≤ nodes.countP (·.answers accept) := by
  have sized : (candidates S nodes query accept).length = nodes.countP (·.answers accept) :=
    length_candidates
  rw [<- sized]
  exact (subperm_of_subset isOpen.nodup
    fun candidate isResult => ((isOpen.results candidate).mp isResult).2).length_le

section

variable (isOpen : walk.Open S nodes query accept) (few : nodes.countP (·.answers accept) < ef)

include isOpen few

theorem Open.enters (candidate : Candidate) : walk.enters S ef candidate = true := by
  have short := isOpen.length_results
  rw [Walk.enters]
  cases farthest S walk.results with
  | none => rfl
  | some worst => simp [show walk.results.length < ef by omega]

theorem Open.not_finished (current : Candidate) : walk.finished S ef current = false := by
  have short := isOpen.length_results
  rw [Walk.finished]
  cases farthest S walk.results with
  | none => rfl
  | some worst => simp [show ¬ef ≤ walk.results.length by omega]

end

theorem getElem?_set_true {seen : List Bool} {position other : Nat}
    (inRange : position < seen.length) :
    (seen.set position true)[other]? = some true ↔ seen[other]? = some true ∨ other = position := by
  rw [getElem?_set]
  by_cases same : position = other
  · subst same
    simp [inRange]
  · simp [same, Ne.symm same]

theorem Open.meet (isOpen : walk.Open S nodes query accept) {neighbor : Nat}
    {node : Node S.Vector} (isNode : nodes[neighbor]? = some node)
    (unseen : walk.seen[neighbor]? = some false) (frontier : List Candidate) :
    Open S nodes query accept ⟨walk.seen.set neighbor true, frontier,
      if node.answers accept then ⟨S.distance query node.vector, neighbor⟩ :: walk.results
      else walk.results⟩ := by
  have inRange : neighbor < walk.seen.length := (List.getElem?_eq_some_iff.mp unseen).1
  have fresh (candidate : Candidate) (isNeighbor : candidate.node = neighbor) :
      candidate ∉ walk.results := by
    intro isResult
    have isSeen := ((isOpen.results candidate).mp isResult).1
    rw [isNeighbor, Seen, unseen] at isSeen
    cases isSeen
  have chosen (candidate : Candidate) (isNeighbor : candidate.node = neighbor) :
      candidate ∈ candidates S nodes query accept ↔
        node.answers accept ∧ candidate = ⟨S.distance query node.vector, neighbor⟩ := by
    rw [mem_candidates, isNeighbor]
    constructor
    · rintro ⟨other, isOther, answers, isDistance⟩
      obtain rfl := Option.some.inj (isNode.symm.trans isOther)
      exact ⟨answers, by cases candidate; cases isNeighbor; cases isDistance; rfl⟩
    · rintro ⟨answers, rfl⟩
      exact ⟨node, isNode, answers, rfl⟩
  refine ⟨by simpa using isOpen.length, ?_, fun candidate => ?_⟩
  · dsimp only
    split
    · exact nodup_cons.mpr ⟨fresh _ rfl, isOpen.nodup⟩
    · exact isOpen.nodup
  · rw [Seen, getElem?_set_true inRange]
    by_cases same : candidate.node = neighbor
    · rw [chosen candidate same]
      by_cases answers : node.answers accept = true
      · simp only [answers, if_true, mem_cons, true_and, same, or_true]
        exact ⟨fun found => found.resolve_right (fresh candidate same), .inl⟩
      · simp [answers, fresh candidate same]
    · have apart : candidate ≠ ⟨S.distance query node.vector, neighbor⟩ :=
        fun equal => same (congrArg Candidate.node equal)
      have before := isOpen.results candidate
      rw [Seen] at before
      by_cases answers : node.answers accept = true
      · simpa [answers, apart, same] using before
      · simpa [answers, same] using before

section

variable (isOpen : walk.Open S nodes query accept) (few : nodes.countP (·.answers accept) < ef)

include isOpen few

theorem Open.follow {neighbor : Nat} (inRange : neighbor < nodes.length) :
    ∃ next, walk.follow S nodes query ef (admits (some (.ofBool accept))) neighbor = .ok next ∧
      next.Open S nodes query accept ∧
      (∀ node, next.Seen node ↔ walk.Seen node ∨ node = neighbor) ∧
      ∀ node, next.Pending node ↔ walk.Pending node ∨ node = neighbor ∧ ¬walk.Seen node := by
  have isNode := getElem?_eq_getElem inRange
  have inSeen : neighbor < walk.seen.length := isOpen.length ▸ inRange
  have isSeen := getElem?_eq_getElem inSeen
  cases seen : walk.seen[neighbor] with
  | true =>
    rw [seen] at isSeen
    refine ⟨walk, ?_, isOpen, fun node => ?_, fun node => ?_⟩
    · rw [Walk.follow, isNode, isSeen]
    · constructor
      · exact .inl
      · rintro (before | rfl)
        · exact before
        · exact isSeen
    · constructor
      · exact .inl
      · rintro (before | ⟨rfl, unseen⟩)
        · exact before
        · exact absurd isSeen unseen
  | false =>
    rw [seen] at isSeen
    obtain ⟨start, isStart⟩ : ∃ start : Candidate,
        start = ⟨S.distance query nodes[neighbor].vector, neighbor⟩ := ⟨_, rfl⟩
    have met := isOpen.meet isNode isSeen (start :: walk.frontier)
    have enters : Walk.enters S ⟨walk.seen.set neighbor true, walk.frontier, walk.results⟩ ef
        start = true := isOpen.enters few start
    refine ⟨_, ?_, met, fun node => ?_, fun node => ?_⟩
    · rw [Walk.follow, isNode, isSeen]
      dsimp only
      rw [<- isStart, if_pos enters, admits_ofBool, ok_bind]
      have short := met.length_results
      by_cases answers : nodes[neighbor].answers accept = true
      · rw [if_pos answers] at short ⊢
        rw [Walk.hold]
        dsimp only at short ⊢
        rw [if_neg (by rw [isStart]; omega), if_pos answers, isStart]
        rfl
      · rw [if_neg answers, if_neg answers]
        rfl
    · exact getElem?_set_true inSeen
    · have unseen : ¬walk.Seen neighbor := by
        rw [Seen, isSeen]
        simp
      simp only [Pending, mem_cons, exists_eq_or_imp, isStart]
      constructor
      · rintro (rfl | before)
        · exact .inr ⟨rfl, unseen⟩
        · exact .inl before
      · rintro (before | ⟨rfl, -⟩)
        · exact .inr before
        · exact .inl rfl

theorem Open.foldlM_follow {neighbors : List Nat}
    (inRange : ∀ neighbor ∈ neighbors, neighbor < nodes.length) :
    ∃ next, neighbors.foldlM (Walk.follow S nodes query ef (admits (some (.ofBool accept)))) walk =
        .ok next ∧ next.Open S nodes query accept ∧
      (∀ node, next.Seen node ↔ walk.Seen node ∨ node ∈ neighbors) ∧
      ∀ node, next.Pending node ↔ walk.Pending node ∨ node ∈ neighbors ∧ ¬walk.Seen node := by
  induction neighbors generalizing walk with
  | nil => exact ⟨walk, rfl, isOpen, by simp, by simp⟩
  | cons neighbor neighbors ih =>
    obtain ⟨middle, followed, isOpenMiddle, seenMiddle, pendingMiddle⟩ :=
      isOpen.follow few (inRange neighbor mem_cons_self)
    obtain ⟨next, rest, isOpenNext, seenNext, pendingNext⟩ := ih isOpenMiddle
      fun other member => inRange other (mem_cons_of_mem _ member)
    refine ⟨next, ?_, isOpenNext, fun node => ?_, fun node => ?_⟩
    · rw [foldlM_cons, followed, ok_bind, rest]
    · rw [seenNext, seenMiddle, mem_cons, or_assoc]
    · rw [pendingNext, pendingMiddle, seenMiddle, mem_cons]
      grind

end

theorem Open.run {layer start steps : Nat} (isOpen : walk.Open S nodes query accept)
    (few : nodes.countP (·.answers accept) < ef) (linked : Linked nodes)
    (visited : Visited (Links nodes layer) start walk.Seen walk.Pending)
    (pendingSeen : ∀ node, walk.Pending node -> walk.Seen node) (enough : walk.left ≤ steps) :
    ∃ final, Walk.run S nodes query ef layer (admits (some (.ofBool accept))) steps walk =
        .ok final ∧ final.Open S nodes query accept ∧
      ∀ node, final.Seen node ↔ ReflTransGen (Links nodes layer) start node := by
  have drained (empty : walk.frontier = []) (node : Nat) :
      walk.Seen node ↔ ReflTransGen (Links nodes layer) start node :=
    visited.seen_iff fun node => by simp [Pending, empty]
  induction steps generalizing walk with
  | zero =>
    have empty : walk.frontier = [] := by
      unfold left at enough
      exact length_eq_zero_iff.mp (by omega)
    exact ⟨walk, rfl, isOpen, drained empty⟩
  | succ steps ih =>
    rw [Walk.run]
    cases popped : popNearest S walk.frontier with
    | none => exact ⟨walk, rfl, isOpen, drained (popNearest_eq_none.mp popped)⟩
    | some taken =>
      obtain ⟨current, frontier⟩ := taken
      obtain ⟨isCurrent, rest⟩ := popNearest_mem popped
      have isOpenRest : Open S nodes query accept { walk with frontier } :=
        ⟨isOpen.length, isOpen.nodup, isOpen.results⟩
      have inRange : ∀ neighbor ∈ neighborsAt nodes current.node layer,
          neighbor < nodes.length := fun neighbor isLink => (linked _ _ neighbor isLink).lt
      obtain ⟨next, followed, isOpenNext, seenNext, pendingNext⟩ :=
        isOpenRest.foldlM_follow few inRange
      have keeps (node : Nat) (waits : walk.Pending node) (apart : node ≠ current.node) :
          next.Pending node := by
        obtain ⟨candidate, isCandidate, rfl⟩ := waits
        refine (pendingNext _).mpr (.inl ⟨candidate, ?_, rfl⟩)
        rw [rest]
        exact (mem_erase_of_ne fun same => apart (congrArg Candidate.node same)).mpr isCandidate
      have adds (node : Nat) (isSeen : next.Seen node) (unseen : ¬walk.Seen node) :
          next.Pending node :=
        (pendingNext node).mpr (.inr ⟨((seenNext node).mp isSeen).resolve_left unseen, unseen⟩)
      have onward := visited.expand (pendingSeen _ ⟨current, isCurrent, rfl⟩) seenNext keeps adds
      have fewer := expand_left popped followed
      dsimp only
      rw [isOpen.not_finished few, if_neg (by simp), followed, ok_bind]
      refine ih isOpenNext onward (fun node waits => ?_) (by omega) fun empty node =>
        onward.seen_iff fun node => by simp [Pending, empty]
      rcases (pendingNext node).mp waits with ⟨candidate, isCandidate, rfl⟩ | ⟨isLink, -⟩
      · rw [rest] at isCandidate
        exact (seenNext _).mpr (.inl (pendingSeen _ ⟨candidate, mem_of_mem_erase isCandidate, rfl⟩))
      · exact (seenNext node).mpr (.inr isLink)

end Walk

end InlaySql.Hnsw
