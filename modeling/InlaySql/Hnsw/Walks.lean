import InlaySql.Hnsw.Graph
import InlaySql.Lib.Fallible

/-!
# What a walk keeps to

A walk meets the node it starts at and nodes it was led to by links of its layer, so what holds
of the start and of every link holds of all it finds. It ends by itself: a node is expanded
once, and no node is expanded that was not seen before.
-/

namespace InlaySql.Hnsw

open List Option Lib Sql

variable {S : Space}

theorem foldl_choose_mem {α : Type*} (prefers : α -> α -> Bool) (first : α) (rest : List α) :
    rest.foldl (fun kept item => if prefers kept item then item else kept) first ∈
      first :: rest := by
  induction rest generalizing first with
  | nil => simp
  | cons item rest ih =>
    rw [foldl_cons]
    rcases mem_cons.mp (ih (if prefers first item then item else first)) with same | later
    · rw [same]
      split <;> simp
    · exact mem_cons_of_mem _ (mem_cons_of_mem _ later)

theorem farthest_cons (first : Candidate) (rest : List Candidate) :
    farthest S (first :: rest) = some (rest.foldl (fun kept candidate =>
      if (kept.compare S candidate).isLT then candidate else kept) first) := by
  rw [farthest, foldl_cons]
  induction rest generalizing first with
  | nil => rfl
  | cons candidate rest ih => exact ih _

section

variable {candidates : List Candidate}

theorem farthest_mem {worst : Candidate} (isFarthest : farthest S candidates = some worst) :
    worst ∈ candidates := by
  cases candidates with
  | nil => cases isFarthest
  | cons first rest =>
    rw [farthest_cons] at isFarthest
    cases isFarthest
    exact foldl_choose_mem _ first rest

theorem farthest_eq_none : farthest S candidates = none ↔ candidates = [] := by
  cases candidates with
  | nil => simp [farthest]
  | cons first rest => simp [farthest_cons]

theorem popNearest_eq_none : popNearest S candidates = none ↔ candidates = [] := by
  cases candidates <;> simp [popNearest]

end

variable {others : List Candidate} {nearest : Candidate}

section

variable {candidates : List Candidate} (popped : popNearest S candidates = some (nearest, others))

include popped

theorem popNearest_mem : nearest ∈ candidates ∧ others = candidates.erase nearest := by
  cases candidates with
  | nil => cases popped
  | cons first rest =>
    cases popped
    exact ⟨foldl_choose_mem _ first rest, rfl⟩

theorem popNearest_length : others.length + 1 = candidates.length := by
  obtain ⟨isNearest, rfl⟩ := popNearest_mem popped
  have nonempty := length_pos_of_mem isNearest
  rw [length_erase_of_mem isNearest]
  omega

end

namespace Walk

variable {nodes : List (Node S.Vector)} {query : S.Vector} {ef layer : Nat}
  {admits : Node S.Vector -> Except Error Bool} {walk next : Walk}

/-! ## Where it leads -/

/-- All that the walk has met and kept is of a kind. -/
structure Within (kind : Nat -> Prop) (walk : Walk) : Prop where
  frontier : ∀ candidate ∈ walk.frontier, kind candidate.node
  results : ∀ candidate ∈ walk.results, kind candidate.node

variable {kind : Nat -> Prop}

variable {candidate : Candidate} {neighbor : Nat} {neighbors : List Nat} {steps : Nat}

theorem Within.hold (inside : walk.Within kind) (isKind : kind candidate.node) :
    (walk.hold S ef candidate).Within kind := by
  have held : ∀ other ∈ candidate :: walk.results, kind other.node := by
    intro other isHeld
    rcases mem_cons.mp isHeld with rfl | before
    · exact isKind
    · exact inside.results other before
  unfold Walk.hold
  dsimp only
  split
  · refine ⟨inside.frontier, fun other isResult => ?_⟩
    cases worst : farthest S (candidate :: walk.results) with
    | none => exact absurd (farthest_eq_none.mp worst) (cons_ne_nil _ _)
    | some worst =>
      simp only [worst, map_some, getD_some] at isResult
      exact held other (mem_of_mem_erase isResult)
  · exact ⟨inside.frontier, held⟩

/-- What following a link does, if it succeeds: nothing, or the neighbor is met, and then
maybe kept. -/
theorem follow_cases (followed : walk.follow S nodes query ef admits neighbor = .ok next) :
    next = walk ∨ walk.seen[neighbor]? = some false ∧
      (next = { walk with seen := walk.seen.set neighbor true } ∨
        ∃ candidate : Candidate, candidate.node = neighbor ∧
          (next = ⟨walk.seen.set neighbor true, candidate :: walk.frontier, walk.results⟩ ∨
            next = hold S ⟨walk.seen.set neighbor true, candidate :: walk.frontier, walk.results⟩
              ef candidate)) := by
  unfold Walk.follow at followed
  split at followed
  · rename_i node _ unseen
    dsimp only at followed
    refine .inr ⟨unseen, ?_⟩
    split at followed
    · obtain ⟨admitted, -, taken⟩ := bind_eq_ok followed
      refine .inr ⟨⟨S.distance query node.vector, neighbor⟩, rfl, ?_⟩
      cases admitted with
      | true => exact .inr (Except.ok.inj taken).symm
      | false => exact .inl (Except.ok.inj taken).symm
    · exact .inl (Except.ok.inj followed).symm
  · exact .inl (Except.ok.inj followed).symm

theorem Within.follow (inside : walk.Within kind) (isKind : kind neighbor)
    (followed : walk.follow S nodes query ef admits neighbor = .ok next) : next.Within kind := by
  have pushed (candidate : Candidate) (isNeighbor : candidate.node = neighbor) :
      Within kind ⟨walk.seen.set neighbor true, candidate :: walk.frontier, walk.results⟩ := by
    refine ⟨fun other isFrontier => ?_, inside.results⟩
    rcases mem_cons.mp isFrontier with rfl | before
    · rw [isNeighbor]
      exact isKind
    · exact inside.frontier other before
  rcases follow_cases followed with rfl | ⟨-, rfl | ⟨candidate, isNeighbor, rfl | rfl⟩⟩
  · exact inside
  · exact ⟨inside.frontier, inside.results⟩
  · exact pushed candidate isNeighbor
  · exact (pushed candidate isNeighbor).hold (by rw [isNeighbor]; exact isKind)

/-- Links of the layer lead from a kind of node to the same kind. -/
def Leads (nodes : List (Node S.Vector)) (layer : Nat) (kind : Nat -> Prop) : Prop :=
  ∀ node, kind node -> ∀ neighbor ∈ neighborsAt nodes node layer, kind neighbor

theorem foldlM_follow_within (inside : walk.Within kind)
    (isKind : ∀ neighbor ∈ neighbors, kind neighbor)
    (followed : neighbors.foldlM (follow S nodes query ef admits) walk = .ok next) :
    next.Within kind := by
  induction neighbors generalizing walk with
  | nil =>
    cases followed
    exact inside
  | cons neighbor neighbors ih =>
    rw [foldlM_cons] at followed
    obtain ⟨middle, first, rest⟩ := bind_eq_ok followed
    exact ih (inside.follow (isKind neighbor mem_cons_self) first)
      (fun other member => isKind other (mem_cons_of_mem _ member)) rest

theorem Within.run (inside : walk.Within kind) (leads : Leads nodes layer kind)
    (ran : run S nodes query ef layer admits steps walk = .ok next) : next.Within kind := by
  induction steps generalizing walk with
  | zero =>
    cases ran
    exact inside
  | succ steps ih =>
    rw [Walk.run] at ran
    split at ran
    · cases ran
      exact inside
    · rename_i current frontier popped
      split at ran
      · cases ran
        exact inside
      · obtain ⟨expanded, followed, rest⟩ := bind_eq_ok ran
        obtain ⟨isCurrent, rfl⟩ := popNearest_mem popped
        have less : Within kind { walk with frontier := walk.frontier.erase current } :=
          ⟨fun other member => inside.frontier other (mem_of_mem_erase member), inside.results⟩
        exact ih (foldlM_follow_within less
          (leads current.node (inside.frontier current isCurrent)) followed) rest

/-! ## It keeps what it found -/

theorem hold_results_ne_nil (wide : 1 ≤ ef) : (walk.hold S ef candidate).results ≠ [] := by
  unfold Walk.hold
  dsimp only
  split
  · rename_i beyond
    cases worst : farthest S (candidate :: walk.results) with
    | none => simp
    | some worst =>
      have isResult := farthest_mem worst
      intro empty
      have counted := congrArg List.length empty
      simp only [map_some, getD_some, length_nil, length_erase_of_mem isResult] at counted
      omega
  · simp

section

variable (wide : 1 ≤ ef) (found : walk.results ≠ [])

include wide found

theorem follow_results_ne_nil (followed : walk.follow S nodes query ef admits neighbor = .ok next) :
    next.results ≠ [] := by
  rcases follow_cases followed with rfl | ⟨-, rfl | ⟨candidate, -, rfl | rfl⟩⟩
  · exact found
  · exact found
  · exact found
  · exact hold_results_ne_nil wide

theorem run_results_ne_nil (ran : run S nodes query ef layer admits steps walk = .ok next) :
    next.results ≠ [] := by
  induction steps generalizing walk with
  | zero =>
    cases ran
    exact found
  | succ steps ih =>
    rw [Walk.run] at ran
    split at ran
    · cases ran
      exact found
    · split at ran
      · cases ran
        exact found
      · obtain ⟨expanded, followed, rest⟩ := bind_eq_ok ran
        refine ih (foldlM_keeps (fun walk : Walk => walk.results ≠ []) ?_ ?_ followed) rest
        · intro _ _ _ before step
          exact follow_results_ne_nil wide before step
        · exact found

end

/-! ## It ends -/

/-- The nodes still to expand or to meet. -/
def left (walk : Walk) : Nat := walk.seen.count false + walk.frontier.length

theorem count_false_set {seen : List Bool} {position : Nat}
    (unseen : seen[position]? = some false) :
    (seen.set position true).count false + 1 = seen.count false := by
  induction seen generalizing position with
  | nil => cases unseen
  | cons head tail ih =>
    cases position with
    | zero =>
      cases unseen
      simp
    | succ position =>
      have counted := ih unseen
      simp only [set_cons_succ, count_cons]
      omega

theorem hold_left : (walk.hold S ef candidate).left = walk.left := by
  unfold Walk.hold
  dsimp only
  split <;> rfl

theorem follow_left (followed : walk.follow S nodes query ef admits neighbor = .ok next) :
    next.left ≤ walk.left := by
  rcases follow_cases followed with rfl | ⟨unseen, met⟩
  · exact Nat.le_refl _
  · have counted := count_false_set unseen
    rcases met with rfl | ⟨candidate, -, rfl | rfl⟩
    · simp only [left]
      omega
    · simp only [left, length_cons]
      omega
    · rw [hold_left]
      simp only [left, length_cons]
      omega

theorem expand_left {current : Candidate} {frontier : List Candidate}
    (popped : popNearest S walk.frontier = some (current, frontier))
    (followed : neighbors.foldlM (follow S nodes query ef admits) { walk with frontier } =
      .ok next) : next.left < walk.left := by
  have fewer := popNearest_length popped
  have counted : next.left ≤ left { walk with frontier } := by
    refine foldlM_keeps (·.left ≤ left { walk with frontier }) ?_ (Nat.le_refl _) followed
    intro _ _ _ before step
    exact (follow_left step).trans before
  unfold left at counted ⊢
  dsimp only at counted
  omega

theorem start_left {count entry : Nat} (inRange : entry < count) (start : Candidate)
    (results : List Candidate) :
    left ⟨(List.replicate count false).set entry true, [start], results⟩ = count := by
  have unseen : (List.replicate count false)[entry]? = some false := by
    simp [inRange]
  have counted := count_false_set unseen
  rw [count_replicate_self] at counted
  simpa [left] using counted

/-! ## Without a filter it succeeds -/

theorem follow_unfiltered :
    ∃ next, walk.follow S nodes query ef (Hnsw.admits none) neighbor = .ok next := by
  unfold Walk.follow
  split
  · dsimp only
    split
    · exact ⟨_, rfl⟩
    · exact ⟨_, rfl⟩
  · exact ⟨_, rfl⟩

theorem run_unfiltered :
    ∃ next, run S nodes query ef layer (Hnsw.admits none) steps walk = .ok next := by
  induction steps generalizing walk with
  | zero => exact ⟨walk, rfl⟩
  | succ steps ih =>
    rw [Walk.run]
    split
    · exact ⟨walk, rfl⟩
    · split
      · exact ⟨walk, rfl⟩
      · rename_i current frontier _ _
        obtain ⟨expanded, followed, -⟩ : ∃ expanded, (neighborsAt nodes current.node layer).foldlM
              (follow S nodes query ef (Hnsw.admits none)) { walk with frontier } =
              .ok expanded ∧ True :=
          foldlM_succeeds (fun _ => True)
            (fun _ _ _ _ => follow_unfiltered.imp fun _ stepped => ⟨stepped, trivial⟩) trivial
        rw [followed, ok_bind]
        exact ih

end Walk

/-- A search of a layer without a filter succeeds, finds something, and stays among what the
links of the layer lead to. -/
theorem searchLayer_unfiltered {nodes : List (Node S.Vector)} {query : S.Vector}
    {entry ef layer : Nat} {kind : Nat -> Prop} (leads : Walk.Leads nodes layer kind)
    (isKind : kind entry) (inRange : entry < nodes.length) :
    ∃ found, searchLayer S nodes query entry ef layer none = .ok found ∧ found ≠ [] ∧
      ∀ candidate ∈ found, kind candidate.node := by
  have start (seen : List Bool) (candidate : Candidate) (isEntry : candidate.node = entry) :
      Walk.Within kind ⟨seen, [candidate], [candidate]⟩ := by
    have met : ∀ other ∈ [candidate], kind other.node := by
      simpa [isEntry] using isKind
    exact ⟨met, met⟩
  rw [searchLayer, getElem?_eq_getElem inRange]
  dsimp only
  rw [admits, ok_bind, if_pos rfl]
  obtain ⟨final, ran⟩ := Walk.run_unfiltered
  rw [ran, ok_bind]
  refine ⟨_, rfl, ?_, fun candidate isFound => ?_⟩
  · have found := Walk.run_results_ne_nil (by omega) (cons_ne_nil _ _) ran
    intro empty
    have counted := congrArg List.length empty
    rw [length_mergeSort] at counted
    exact found (length_eq_zero_iff.mp counted)
  · exact ((start _ _ rfl).run leads ran).results candidate (mem_mergeSort.mp isFound)

end InlaySql.Hnsw
