import InlaySql.Hnsw.PagedFacts
import InlaySql.Hnsw.Saved

/-!
# Two indexes told the same

Both indexes are told the same rows, in any order, and commit at the same times. What they are
told of a row is its last insertion, if no removal follows. After a commit each holds that of
every row and nothing else, if no row of the paged batch was last removed, and if nothing was
pending when the index in memory was saved.
-/

namespace InlaySql.Hnsw

open Lib Sql

/-- What an index is told. -/
inductive Op where
  | insert (id : RowId) (embedding : Embedding)
  | remove (id : RowId)
  | setParams (params : HnswParams)
  | commit
  /-- A save of the index in memory, read back by an index of these parameters. -/
  | saveLoad (params : HnswParams)

/-- Both indexes, and what they were told of each row. -/
structure Pair (S : Space) where
  memory : HnswIndex S
  paged : PagedHnswIndex S
  told : RowId -> Option Embedding

namespace Pair

variable {S : Space}

def fresh (dim : Nat) (params : HnswParams) : Pair S :=
  ⟨.withParams dim params, .withParams dim params, fun _ => none⟩

/-- One operation. An insertion that is refused changes nothing. -/
def step (pair : Pair S) : Op -> Except Error (Pair S)
  | .insert id embedding =>
    match pair.memory.insert id embedding, pair.paged.insert id embedding with
    | .ok memory, .ok paged => .ok ⟨memory, paged, recorded pair.told id embedding⟩
    | _, _ => .ok pair
  | .remove id => .ok ⟨pair.memory.remove id, pair.paged.remove id, dropped pair.told id⟩
  | .setParams params =>
    .ok { pair with memory := pair.memory.setParams params, paged := pair.paged.setParams params }
  | .commit => do
      let memory <- pair.memory.commit
      let paged <- pair.paged.commit
      return { pair with memory, paged }
  | .saveLoad params => do
      let memory <- (HnswIndex.withParams pair.memory.dim params).load pair.memory.encode
      return { pair with memory }

/-- After a commit: of each row told both have one live node, with the vector last told, and of
no other row; the deleted nodes are counted; and a search answers with rows told. -/
structure Holds (pair : Pair S) : Prop where
  memoryRows : ∀ id, (pair.memory.graph.nodes.filter fun node =>
    !node.deleted && decide (node.id = id)).map Node.vector = ((pair.told id).map S.prepared).toList
  pagedRows : ∀ id, (pair.paged.graph.nodes.filter fun node =>
    !node.deleted && decide (node.id = id)).map Node.vector = ((pair.told id).map S.stored).toList
  memoryTombstones : pair.memory.tombstones = pair.memory.graph.nodes.countP Node.deleted
  pagedTombstones : pair.paged.tombstones = pair.paged.graph.nodes.countP Node.deleted
  memorySearch : ∀ query k ef filter answers,
    pair.memory.searchWithEf query k ef filter = .ok answers ->
      ∀ answer ∈ answers, (pair.told answer.id).isSome
  pagedSearch : ∀ query k ef filter answers,
    pair.paged.searchWithEf query k ef filter = .ok answers ->
      ∀ answer ∈ answers, (pair.told answer.id).isSome

/-- Every operation of a run succeeds, and every commit leaves both indexes as told. -/
def HoldsThroughout (pair : Pair S) : List Op -> Prop
  | [] => True
  | op :: ops =>
    ∃ next, pair.step op = .ok next ∧ (op = .commit -> next.Holds) ∧ next.HoldsThroughout ops

/-- A commit finds no row queued in the paged index that was last removed. A save finds nothing
staged and no live node whose row was removed, in a graph whose nodes 32 bits count, and writes
four bytes for each dimension after the dimension itself. -/
def Careful (pair : Pair S) : Op -> Prop
  | .commit => ∀ id ∈ pair.paged.pendingInserts.map Prod.fst, pair.told id ≠ none
  | .saveLoad _ => pair.memory.Restorable ∧ pair.memory.graph.nodes.length < 2 ^ 32 ∧
      pair.memory.dim < 2 ^ 32 ∧ 4 * pair.memory.dim ≤ pair.memory.encode.size
  | _ => True

/-- Every operation of a run is careful. -/
def CarefulThroughout (pair : Pair S) : List Op -> Prop
  | [] => True
  | op :: ops =>
    pair.Careful op ∧ ∀ next, pair.step op = .ok next -> next.CarefulThroughout ops

/-- Both indexes follow what they are told. -/
structure Follows (pair : Pair S) : Prop where
  memory : pair.memory.Follows fun id => (pair.told id).map S.prepared
  paged : pair.paged.Follows fun id => (pair.told id).map S.stored
  dim : pair.memory.dim = pair.paged.dim

theorem follows_fresh (dim : Nat) (params : HnswParams) : (fresh dim params : Pair S).Follows where
  memory := (HnswIndex.settled_withParams dim params).follows
  paged := (PagedHnswIndex.settled_withParams dim params).follows
  dim := rfl

section

variable {α β : Type} (told : RowId -> Option α) (f : α -> β) (id : RowId)

include told f id

theorem map_recorded (value : α) : (fun other => (recorded told id value other).map f) =
      recorded (fun other => (told other).map f) id (f value) := by
  funext other
  by_cases same : other = id
  · rw [same, recorded_same, recorded_same, Option.map_some]
  · rw [recorded_other _ _ _ _ same, recorded_other _ _ _ _ same]

theorem map_dropped :
    (fun other => (dropped told id other).map f) = dropped (fun other => (told other).map f) id := by
  funext other
  by_cases same : other = id
  · rw [same, dropped_same, dropped_same, Option.map_none]
  · rw [dropped_other _ _ _ same, dropped_other _ _ _ same]

end

theorem holds_of_settled {pair : Pair S}
    (memory : pair.memory.Settled fun id => (pair.told id).map S.prepared)
    (paged : pair.paged.Settled fun id => (pair.told id).map S.stored) : pair.Holds where
  memoryRows := Ledger.live_rows memory.stands
  pagedRows := Ledger.live_rows paged.stands
  memoryTombstones := Ledger.tombstones_eq memory.stands
  pagedTombstones := Ledger.tombstones_eq paged.stands
  memorySearch := fun _ _ _ _ _ searched answer isAnswer => by
    simpa using memory.stands.search searched answer isAnswer
  pagedSearch := fun _ _ _ _ _ searched answer isAnswer => by
    simpa using paged.stands.search searched answer isAnswer

theorem Follows.step {pair : Pair S} (follows : pair.Follows) {op : Op}
    (careful : pair.Careful op) :
    ∃ next, pair.step op = .ok next ∧ (op = .commit -> next.Holds) ∧ next.Follows := by
  obtain ⟨memory, paged, dim⟩ := follows
  cases op with
  | insert id embedding =>
    by_cases fits : embedding.length = pair.memory.dim
    · obtain ⟨memoryTold, inserted, kin, memoryFollows⟩ := memory.insert id fits
      obtain ⟨pagedTold, insertedPaged, kinPaged, pagedFollows⟩ :=
        paged.insert id (fits.trans dim)
      refine ⟨⟨memoryTold, pagedTold, recorded pair.told id embedding⟩, ?_, by simp, ⟨?_, ?_, ?_⟩⟩
      · rw [Pair.step, inserted, insertedPaged]
      · rw [map_recorded]
        exact memoryFollows
      · rw [map_recorded]
        exact pagedFollows
      · exact kin.1.trans (dim.trans kinPaged.1.symm)
    · refine ⟨pair, ?_, by simp, ⟨memory, paged, dim⟩⟩
      rw [Pair.step, HnswIndex.insert, if_pos fits]
  | remove id =>
    refine ⟨_, rfl, by simp, ⟨?_, ?_, dim⟩⟩
    · rw [map_dropped]
      exact memory.remove id
    · rw [map_dropped]
      exact paged.remove id
  | setParams params =>
    exact ⟨_, rfl, by simp, ⟨memory.setParams params, paged.setParams params, dim⟩⟩
  | commit =>
    obtain ⟨memoryDone, committed, settled, kin⟩ := memory.commit
    obtain ⟨pagedDone, committedPaged, settledPaged, kinPaged⟩ := paged.commit fun id queued =>
      fun unwanted => careful id queued (Option.map_eq_none_iff.mp unwanted)
    refine ⟨⟨memoryDone, pagedDone, pair.told⟩, ?_, fun _ => holds_of_settled settled settledPaged,
      ⟨settled.follows, settledPaged.follows, kin.1.trans (dim.trans kinPaged.1.symm)⟩⟩
    rw [Pair.step, committed, ok_bind, committedPaged, ok_bind]
    rfl
  | saveLoad params =>
    obtain ⟨loaded, isLoaded, settled, kin⟩ := memory.load careful.1 careful.2.2.2
      (HnswIndex.withParams pair.memory.dim params) rfl
    refine ⟨{ pair with memory := loaded }, ?_, by simp, ⟨settled.follows, paged, kin.1.trans dim⟩⟩
    rw [Pair.step, isLoaded]
    rfl

theorem Follows.run {pair : Pair S} (follows : pair.Follows) {ops : List Op}
    (careful : pair.CarefulThroughout ops) : pair.HoldsThroughout ops := by
  induction ops generalizing pair with
  | nil => trivial
  | cons op ops ih =>
    obtain ⟨first, rest⟩ := careful
    obtain ⟨next, stepped, holds, followsNext⟩ := follows.step first
    exact ⟨next, stepped, holds, ih followsNext (rest next stepped)⟩

/-- In a careful run of two fresh indexes every commit leaves both as told. -/
theorem holds_throughout (dim : Nat) (params : HnswParams) {ops : List Op}
    (careful : (fresh dim params : Pair S).CarefulThroughout ops) :
    (fresh dim params : Pair S).HoldsThroughout ops :=
  (follows_fresh dim params).run careful

/-! ## Two points -/

/-- Euclidean distance of exact vectors that are equal or one apart. -/
def unitSpace : Space where
  Vector := Embedding
  prepared := id
  stored := id
  query := id
  distance := fun left right => if left = right then 0x00000000 else 0x3f800000
  exceeds := fun left right => right < left
  compare := fun left right => Ord.compare left right
  score := fun distance => if distance = 0 then 0x80000000 else 0xbf800000
  storedBytes := fun dim => 4 * dim

/-- The vectors `[0.0]` and `[1.0]`. -/
def origin : Embedding := [0x00000000]

theorem holds_throughout_unit : (fresh 1 .defaults : Pair unitSpace).HoldsThroughout
      [.saveLoad .defaults, .insert 7 origin, .remove 9, .commit] := by
  refine holds_throughout 1 .defaults ⟨⟨(HnswIndex.settled_withParams 1 .defaults).restorable,
    by simp [fresh, HnswIndex.withParams, Graph.empty], by simp [fresh, HnswIndex.withParams],
    by simp [fresh, HnswIndex.withParams, Image.size]⟩, fun loaded isLoaded => ⟨trivial,
    fun told isTold => ⟨trivial, fun removed isRemoved => ⟨?_, fun _ _ => trivial⟩⟩⟩⟩
  obtain ⟨memory, -, sameLoaded⟩ := bind_eq_ok isLoaded
  cases sameLoaded
  cases isRemoved
  unfold Pair.step at isTold
  dsimp only at isTold
  split at isTold
  · rename_i inserted
    cases isTold
    cases inserted
    simp [Pair.Careful, PagedHnswIndex.remove, fresh, PagedHnswIndex.withParams, recorded, dropped]
  · cases isTold
    simp [Pair.Careful, PagedHnswIndex.remove, fresh, PagedHnswIndex.withParams]

/-- A row inserted and then removed is inserted by the commit of the paged index. -/
theorem removed_row_inserted : ¬ ∀ (S : Space) (dim : Nat) (params : HnswParams) (ops : List Op),
    (fresh dim params : Pair S).HoldsThroughout ops := by
  intro always
  obtain ⟨told, isTold, -, removed, isRemoved, -, committed, isCommitted, holds, -⟩ :=
    always unitSpace 1 .defaults [.insert 7 origin, .remove 7, .commit]
  cases isTold
  cases isRemoved
  obtain ⟨memory, -, isCommitted⟩ := bind_eq_ok isCommitted
  obtain ⟨paged, isPaged, isCommitted⟩ := bind_eq_ok isCommitted
  cases isCommitted
  have fresh_settled : (PagedHnswIndex.withParams 1 .defaults : PagedHnswIndex unitSpace).Settled
      fun _ => none := PagedHnswIndex.settled_withParams 1 .defaults
  have settled := PagedHnswIndex.settled_of_commit isPaged fresh_settled.stands
    fresh_settled.entryLive
  have left := (holds rfl).pagedRows 7
  rw [Ledger.live_rows settled.stands 7] at left
  simp [PagedHnswIndex.outcome, PagedHnswIndex.inserted, PagedHnswIndex.remove] at left

end Pair

end InlaySql.Hnsw
