import InlaySql.Btree.Insert

/-!
# Deletion

Deleting a key under a page removes it from the entries the page stands for. A leaf
left without entries becomes page 0; its separator stays, and the child slot keeps
its fences for a later insertion.
-/

namespace InlaySql.Btree

open Lib Wal

namespace CowBTree

/-- What deleting `key` under a page does. -/
structure Deleted (committed : Pages) (before after : CowBTree) (rests : Finset Nat)
    (low high : Option Bytes) (newId : Nat) (entries : List (Bytes × Bytes)) (key : Bytes) :
    Prop where
  grown : Grown before after rests
  yields : before.Tidy -> ∃ height deleted,
    Yields committed before after rests height low high newId [] deleted ∧
      Overlay entries key none deleted

section Delete

variable {committed : Pages} {self : CowBTree} {key : Bytes} {low high : Option Bytes}

variable {id : Nat} {contents : List (Bytes × Bytes)}

theorem take_supersede {node : Node} (shown : (self.pages committed).node id = .ok node) :
    ∃ wasDirty taken, self.takeNodeForWrite committed id = .ok (node, wasDirty, taken) ∧
      Grown self (taken.supersedeTaken id wasDirty) {id} ∧
      (self.Tidy -> (taken.supersedeTaken id wasDirty).Tidy) := by
  simp only [pages, nodeAt] at shown
  cases held : self.dirty[id]? with
  | none =>
    rw [held] at shown
    have absent : id ∉ self.dirty := by
      rw [Std.TreeMap.mem_iff_isSome_getElem?, held]
      simp
    have same : self.supersedeTaken id false = self := by
      simp [supersedeTaken, supersede, absent]
    refine ⟨false, self, ?_, same.symm ▸ Grown.refl _ _, fun tidy => same.symm ▸ tidy⟩
    simp only [takeNodeForWrite, held, shown]
    rfl
  | some page =>
    rw [held] at shown
    have only : ∀ (other : Nat) (found : DirtyPage),
        (self.dirty.erase id)[other]? = some found -> self.dirty[other]? = some found := by
      intro other found isFound
      by_cases isId : other = id
      · subst isId
        simp at isFound
      · rwa [getElem?_erase_of_ne isId] at isFound
    refine ⟨true, { self with dirty := self.dirty.erase id }, ?_, ?_, ?_⟩
    · cases page with
      | encoded bytes =>
        simp only [takeNodeForWrite, held]
        simp only at shown
        rw [shown]
        rfl
      | decoded found =>
        simp only [takeNodeForWrite, held]
        simp only [Except.ok.injEq] at shown
        rw [shown]
    · refine ⟨rfl, rfl, rfl, rfl, rfl, rfl, le_rfl, ?_, ?_⟩
      · intro other _ outside
        exact getElem?_erase_of_ne (by simpa using outside)
      · intro other _ member
        exact Std.TreeMap.mem_of_mem_erase member
    · intro tidy
      exact ⟨fun other found isFound => tidy.below other found (only other found isFound),
        fun other node isFound => tidy.decoded other node (only other _ isFound),
        fun other bytes isFound => tidy.encoded other bytes (only other _ isFound)⟩

theorem leafViewSize_drop (front middle back : List (Bytes × ValueView)) :
    leafViewSize (front ++ back) ≤ leafViewSize (front ++ middle ++ back) := by
  simp only [leafViewSize, List.length_append, List.map_append, List.sum_append, slotSize]
  omega

theorem delete_leaf {below : Finset Nat} (page : self.pageSize < 2 ^ 16) (valid : id ≠ 0)
    (leaf : LeafHolds self.pageSize (self.pages committed) id low high contents below)
    (issued : ∀ other ∈ insert id below, other < self.pendingNext) (outside : id ∉ below)
    (depth : Nat) :
    ∃ newId after, deleteFrom committed key (depth + 1) self id = .ok (newId, after) ∧
      Deleted committed self after (insert id below) low high newId contents key := by
  obtain ⟨bytes, entries, found, ranged, size, fenced, held, sorted⟩ := leaf.cells
  have idIssued := issued id (Finset.mem_insert_self _ _)
  have belowIssued : ∀ other ∈ below, other < self.pendingNext := fun other member =>
    issued other (Finset.mem_insert_of_mem member)
  obtain ⟨wasDirty, taken, newId, slotted, isTaken, isSlot, takenSize, slot⟩ := take_slot found
  obtain ⟨front, middle, back, isCells, isDropped, inFront, inBack, inMiddle, -⟩ :=
    dropEntry_view key sorted
  have newRanged := dropEntry_ranged key ranged
  rw [isCells] at held
  obtain ⟨dropped, droppedRests, droppedHeld, droppedFenced, overlay, within⟩ :=
    held.drop fenced inFront inBack inMiddle
  rw [<- isDropped] at droppedHeld
  have called : deleteFrom committed key (depth + 1) self id =
      (if (dropEntry bytes entries key).isEmpty then .ok (0, taken.supersedeTaken id wasDirty)
      else .ok (newId, slotted.putNode newId (.leaf bytes (dropEntry bytes entries key)))) := by
    rw [deleteFrom, if_neg valid, descend_leaf key found]
    rw [isTaken]
    simp only [bind, Except.bind, isSlot]
    rfl
  rw [called]
  by_cases isEmpty : (dropEntry bytes entries key).isEmpty = true
  · -- Nothing is left: the page goes, and its slot names page 0.
    obtain ⟨sameDirty, sameTaken, isSame, grown, keepTidy⟩ := take_supersede found
    obtain ⟨rfl, rfl⟩ : wasDirty = sameDirty ∧ taken = sameTaken := by
      rw [isTaken] at isSame
      simpa using isSame
    refine ⟨0, taken.supersedeTaken id wasDirty, by rw [if_pos isEmpty], ⟨?_, ?_⟩⟩
    · exact grown.owning (by simp)
    intro tidy
    rw [List.isEmpty_iff.mp isEmpty] at droppedHeld
    cases droppedHeld with
    | nil => exact ⟨0, [], ⟨keepTidy tidy, ∅, .last .empty, by simp⟩, overlay⟩
  · have filled : dropEntry bytes entries key ≠ [] := fun none => isEmpty (by simp [none])
    refine ⟨newId, slotted.putNode newId (.leaf bytes (dropEntry bytes entries key)),
      by rw [if_neg isEmpty], ⟨(slot.put_grown _).owning (by simp), ?_⟩⟩
    intro tidy
    have newSize : leafSize bytes (dropEntry bytes entries key) ≤ self.pageSize := by
      rw [leafSize_eq newRanged, isDropped]
      rw [leafSize_eq ranged, isCells] at size
      exact (leafViewSize_drop front middle back).trans size
    have droppedOld : ∀ other ∈ droppedRests, other < self.pendingNext := fun other member =>
      belowIssued other (within member)
    have names := leaf_below self page droppedHeld droppedOld
    refine ⟨1, dropped, ⟨slot.put_tidy tidy idIssued _ ⟨newRanged, newSize⟩
      (names.mono slot.next_le), insert newId droppedRests, .last (slot.put_leaf committed
        (slot.newId_ne_zero valid (Nat.zero_lt_of_lt idIssued)) newRanged filled newSize droppedHeld
        droppedFenced droppedOld fun member => outside (within member)), ?_⟩, overlay⟩
    intro other member
    exact (slot.rests_within idIssued other member).imp_left fun owned =>
      Finset.insert_subset_insert _ within owned

theorem delete_inner {height depth : Nat} {below : Finset Nat} (valid : id ≠ 0)
    (inner : InnerHolds self.pageSize (self.pages committed)
      (Subtree self.pageSize (self.pages committed) height) id low high contents below)
    (issued : ∀ other ∈ insert id below, other < self.pendingNext) (outside : id ∉ below)
    (inside : Within low high key) (ih : ∀ child childLow childHigh entries rests,
      Subtree self.pageSize (self.pages committed) height child childLow childHigh entries rests ->
      (∀ other ∈ rests, other < self.pendingNext) -> Within childLow childHigh key ->
      ∃ newChild after, deleteFrom committed key depth self child = .ok (newChild, after) ∧
        Deleted committed self after rests childLow childHigh newChild entries key) :
    ∃ newId after, deleteFrom committed key (depth + 1) self id = .ok (newId, after) ∧
      Deleted committed self after (insert id below) low high newId contents key := by
  obtain ⟨bytes, leftmost, cells, branch, found, routed, absorbs⟩ :=
    inner_absorbs valid inner issued outside inside
  obtain ⟨newChild, middle, isChild, grown, childYields⟩ :=
    ih branch.child branch.low branch.high branch.middle branch.childRests routed.subtree
      (fun other member => issued other (Finset.mem_insert_of_mem
        (routed.rests ▸ Finset.mem_union_right _ member))) routed.inside
  obtain ⟨wasDirty, taken, outcome, after, isTaken, absorbed, wholeGrown, -, -, yields⟩ :=
    absorbs middle (.replaced newChild) grown (by simp [InsertOutcome.cells])
  obtain ⟨rfl, isAfter⟩ := Prod.mk.inj (Except.ok.inj absorbed)
  refine ⟨(taken.slotFor id wasDirty).1, after, ?_, ⟨wholeGrown, ?_⟩⟩
  · rw [deleteFrom, if_neg valid, descend_internal key found, routed.pointer]
    change (deleteFrom committed key depth self branch.child >>= _) = _
    rw [isChild]
    change (middle.takeNodeForWrite committed id >>= _) = _
    rw [isTaken, <- isAfter]
    rfl
  · intro tidy
    obtain ⟨taller, entries, childYield, overlay⟩ := childYields tidy
    obtain ⟨tallest, whole⟩ := yields taller entries childYield
    refine ⟨tallest, _, whole, ?_⟩
    rw [routed.entries]
    exact overlay.frame routed.front routed.back

theorem deleteFrom_spec (page : self.pageSize < 2 ^ 16) {depth height : Nat}
    {entries : List (Bytes × Bytes)} {rests : Finset Nat}
    (subtree : Subtree self.pageSize (self.pages committed) height id low high entries rests)
    (issued : ∀ other ∈ rests, other < self.pendingNext) (inside : Within low high key)
    (deep : height < depth) :
    ∃ newId after, deleteFrom committed key depth self id = .ok (newId, after) ∧
      Deleted committed self after rests low high newId entries key := by
  induction depth generalizing height id low high entries rests with
  | zero => omega
  | succ depth ih =>
    by_cases valid : id = 0
    · subst valid
      obtain ⟨rfl, rfl⟩ := subtree.of_zero
      refine ⟨0, self, by rw [deleteFrom, if_pos rfl], Grown.refl _ _, fun tidy => ?_⟩
      exact ⟨0, [], ⟨tidy, ∅, .last .empty, by simp⟩, by simp [Overlay]⟩
    · obtain ⟨less, below, rfl, rfl, outside, leaf | inner⟩ := subtree.of_ne valid
      · exact delete_leaf page valid leaf issued outside depth
      · refine delete_inner valid inner issued outside inside ?_
        intro child childLow childHigh entries rests childTree childIssued childInside
        exact ih childTree childIssued childInside (by omega)

end Delete

end CowBTree

end InlaySql.Btree
