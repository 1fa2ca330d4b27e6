import InlaySql.Btree.Settle

/-!
# Insertion

Inserting a pair under a page overlays the pair on the entries the page stands for.
The result is a spine between the same fences: one page, or the two halves of a
split with the separator between them. Nothing outside the subtree's own pages
changes but fresh pages.
-/

namespace InlaySql.Btree

open List Lib Wal

namespace CowBTree

theorem alloc_slotted (self : CowBTree) (any : Nat) :
    Slotted self self.allocPage.2 any self.pendingNext :=
  ⟨rfl, rfl, rfl, rfl, rfl, rfl, fun _ _ => rfl, .inr ⟨rfl, rfl⟩⟩

/-- What inserting `value` under page `id` does. -/
structure Inserted (committed : Pages) (before after : CowBTree) (rests : Finset Nat)
    (low high : Option Bytes) (outcome : InsertOutcome) (entries : List (Bytes × Bytes))
    (key value : Bytes) : Prop where
  grown : Grown before after rests
  fits : ∀ cell ∈ outcome.cells, keyFits before.pageSize cell.1 = true
  yields : after.pendingNext ≤ 2 ^ 64 -> before.Tidy -> ∃ height inserted,
    Yields committed before after rests height low high outcome.child outcome.cells inserted ∧
      Overlay entries key (some value) inserted

section Insert

variable {committed : Pages} {self : CowBTree} {key value : Bytes} {low high : Option Bytes}

theorem insert_empty (fits : keyFits self.pageSize key = true) (page : self.pageSize < 2 ^ 16)
    (short : value.length ≤ maxRecordLen self.pageSize) (positive : 0 < self.pendingNext)
    (inside : Within low high key) (depth : Nat) :
    ∃ outcome after, insertInto committed key value (depth + 1) self 0 = .ok (outcome, after) ∧
      Inserted committed self after ∅ low high outcome [] key value := by
  obtain ⟨stored, held, isStored, grown, -, ranged, small, holds⟩ :=
    storeValue_spec value committed fits positive
  have slot := alloc_slotted held
  let node : Node := .leaf [] [{ key := .owned key, value := stored }]
  have placed := (slot held.pendingNext).put_grown node
  refine ⟨.replaced held.pendingNext, held.allocPage.2.putNode held.pendingNext node, ?_, ?_⟩
  · rw [insertInto, if_pos rfl, isStored]
    rfl
  refine ⟨grown.trans placed ?_, by simp [InsertOutcome.cells], ?_⟩
  · intro id member old
    rw [Finset.mem_singleton] at member
    have := grown.next_le
    omega
  intro room tidy
  have next : held.pendingNext + 1 ≤ 2 ^ 64 := room
  obtain ⟨keepTidy, rests, valueHolds, fresh⟩ := holds short (by omega)
  have nodeHeld : Held held.pageSize (held.pages committed) [Entry.view [] ⟨.owned key, stored⟩]
      [(key, value)] rests := by
    rw [grown.pageSize]
    simpa [Entry.view, keyBytes] using
      Held.cons (valueHolds []) fits (small []) (Finset.disjoint_empty_right _) .nil
  have old : ∀ id ∈ rests, id < held.pendingNext := fun id member => (fresh id member).2
  have nodeRanged : ∀ entry ∈ [Entry.mk (.owned key) stored], entry.value.Ranged [] := by
    simpa using ranged []
  have size : leafSize [] [Entry.mk (.owned key) stored] ≤ held.pageSize := by
    have half := small []
    rw [leafSize_eq nodeRanged]
    simp only [leafViewSize, map_cons, map_nil, sum_cons, sum_nil,
      length_cons, length_nil, Entry.view, keyBytes, headerSize, slotSize,
      grown.pageSize] at half ⊢
    omega
  have fenced : Fenced low high [(key, value)] := ⟨by simp, by simpa using inside⟩
  have heldPositive : 0 < held.pendingNext := positive.trans_le grown.next_le
  have names : node.view.Below held.pendingNext :=
    leaf_below held (by rwa [grown.pageSize]) nodeHeld old
  have leaf := (slot held.pendingNext).put_leaf committed heldPositive.ne' nodeRanged (by simp)
    size nodeHeld fenced old (fun member => absurd (old _ member) (lt_irrefl _))
  rw [grown.pageSize] at leaf
  refine ⟨1, [(key, value)], ⟨?_, _, .last leaf, ?_⟩, ?_⟩
  · exact (slot 0).put_tidy (keepTidy tidy) heldPositive node ⟨nodeRanged, size⟩
      (names.mono (slot 0).next_le)
  · intro id member
    rcases Finset.mem_insert.mp member with rfl | inRests
    · exact .inr ⟨grown.next_le, Nat.lt_succ_self _⟩
    · exact .inr ⟨(fresh id inRests).1, (fresh id inRests).2.trans (Nat.lt_succ_self _)⟩
  · exact overlay_singleton key value

theorem leafViewSize_place (front middle back : List (Bytes × ValueView))
    (cell : Bytes × ValueView) :
    leafViewSize (front ++ [cell] ++ back) ≤
      leafViewSize (front ++ middle ++ back) + slotSize + cell.2.cellSize cell.1 := by
  simp only [leafViewSize, length_append, map_append, sum_append, map_cons,
    map_nil, sum_cons, sum_nil, length_cons, length_nil, slotSize]
  omega

variable {id height : Nat} {contents : List (Bytes × Bytes)} {below : Finset Nat}
    {cells : List Separator}

theorem insert_leaf (fits : keyFits self.pageSize key = true) (page : self.pageSize < 2 ^ 16)
    (short : value.length ≤ maxRecordLen self.pageSize) (valid : id ≠ 0)
    (leaf : LeafHolds self.pageSize (self.pages committed) id low high contents below)
    (issued : ∀ other ∈ insert id below, other < self.pendingNext) (outside : id ∉ below)
    (inside : Within low high key) (depth : Nat) :
    ∃ outcome after, insertInto committed key value (depth + 1) self id = .ok (outcome, after) ∧
      Inserted committed self after (insert id below) low high outcome contents key value := by
  obtain ⟨bytes, entries, found, ranged, size, fenced, held, sorted⟩ := leaf.cells
  have idIssued := issued id (Finset.mem_insert_self _ _)
  have belowIssued : ∀ other ∈ below, other < self.pendingNext := fun other member =>
    issued other (Finset.mem_insert_of_mem member)
  obtain ⟨stored, written, isStored, grown, -, storedRanged, small, holds⟩ :=
    storeValue_spec value committed fits (Nat.zero_lt_of_lt idIssued)
  have stillFound : (written.pages committed).node id = .ok (.leaf bytes entries) :=
    (pages_congr committed grown.pageSize (grown.elsewhere id idIssued (by simp))).1.trans found
  obtain ⟨wasDirty, taken, newId, slotted, isTaken, isSlot, takenSize, slot⟩ :=
    take_slot stillFound
  obtain ⟨front, middle, back, isCells, isPlaced, inFront, inBack, inMiddle, -⟩ :=
    placeEntry_view key stored sorted
  have newRanged := placeEntry_ranged key (storedRanged bytes) ranged
  have each : ∀ cell ∈ (placeEntry bytes entries key stored).map (Entry.view bytes),
      keyFits written.pageSize cell.1 = true ∧
        headerSize + slotSize + cell.2.cellSize cell.1 ≤ written.pageSize / 2 := by
    rw [isPlaced, grown.pageSize]
    rw [isCells] at held
    intro cell member
    simp only [mem_append, mem_singleton] at member
    rcases member with (inside | rfl) | inside
    · exact held.cell cell (by simp [inside])
    · exact ⟨fits, small bytes⟩
    · exact held.cell cell (by simp [inside])
  have bounded : leafSize bytes (placeEntry bytes entries key stored) ≤
      written.pageSize + written.pageSize / 2 := by
    have more := leafViewSize_place front middle back (key, stored.view bytes)
    have half := small bytes
    rw [leafSize_eq newRanged, isPlaced, grown.pageSize]
    rw [leafSize_eq ranged, isCells] at size
    simp only [headerSize] at half more
    omega
  obtain ⟨outcome, after, settled, settleGrown, separatorFits, yields⟩ :=
    settleLeaf_spec committed slot isSlot takenSize (by rwa [grown.pageSize]) valid
      (idIssued.trans_le grown.next_le) newRanged (by
        intro isEmpty
        rw [isEmpty] at isPlaced
        simp at isPlaced) each bounded
  refine ⟨outcome, after, ?_, ⟨(grown.owning (Finset.empty_subset _)).trans settleGrown ?_, ?_, ?_⟩⟩
  · rw [insertInto, if_neg valid, descend_leaf key found]
    change (self.storeValue key value >>= _) = _
    rw [isStored]
    change (written.takeNodeForWrite committed id >>= _) = _
    rw [isTaken]
    exact settled
  · simp
  · rwa [grown.pageSize] at separatorFits
  intro room tidy
  have middleRoom := settleGrown.next_le
  obtain ⟨keepTidy, fresh, valueHolds, isFresh⟩ := holds short (by omega)
  have stillHeld := held.frame (grown.keeps committed fun other member =>
    ⟨belowIssued other member, by simp⟩)
  rw [isCells] at stillHeld
  obtain ⟨placed, placedRests, placedHeld, placedFenced, overlay, placedWithin⟩ :=
    stillHeld.place fenced inside inFront inBack inMiddle (valueHolds bytes) fits (small bytes)
      (Finset.disjoint_left.mpr fun other inFresh inBelow =>
        absurd (belowIssued other inBelow) (by have := (isFresh other inFresh).1; omega))
  rw [<- isPlaced, <- grown.pageSize] at placedHeld
  have origin : ∀ other ∈ placedRests,
      other ∈ below ∨ (self.pendingNext ≤ other ∧ other < written.pendingNext) := by
    intro other member
    exact (Finset.mem_union.mp (placedWithin member)).imp_right (isFresh other)
  have settledYields := yields low high placed placedRests (keepTidy tidy) placedHeld placedFenced
    (fun other member => (origin other member).elim
      (fun inBelow => (belowIssued other inBelow).trans_le grown.next_le) fun isNew => isNew.2)
    (fun member => (origin id member).elim outside fun isNew => by omega)
  refine ⟨1, placed, settledYields.before grown settleGrown.next_le ?_, overlay⟩
  intro other member
  rcases Finset.mem_insert.mp member with rfl | inRests
  · exact .inl (Finset.mem_insert_self _ _)
  · exact (origin other inRests).imp_left Finset.mem_insert_of_mem

theorem spliced_size (leftmost newChild index : Nat) (bytes : Bytes) (cells : List Separator)
    (inserted : List (Bytes × Nat)) :
    internalViewSize (spliceChild leftmost (cells.map (Separator.view bytes)) newChild inserted
      index).2 = internalSize bytes cells +
        (inserted.map fun cell => slotSize + internalCellSize cell.1).sum := by
  rw [internalViewSize_keys, spliceChild_keys, internalSize_eq, internalViewSize_keys, sum_slots]
  generalize (cells.map (Separator.view bytes)).map Prod.fst = keys
  have length : keys.length = (keys.take index).length + (keys.drop index).length := by
    rw [<- length_append, take_append_drop]
  have total : (keys.map internalCellSize).sum = ((keys.take index).map internalCellSize).sum +
        ((keys.drop index).map internalCellSize).sum := by
    rw [<- sum_append, <- map_append, take_append_drop]
  rw [length, total]
  simp only [length_append, map_append, sum_append, length_map, map_map,
    slotSize, Function.comp_def]
  omega

theorem spliced_fits (leftmost newChild index : Nat) {pageSize : Nat} {bytes : Bytes}
    {inserted : List (Bytes × Nat)}
    (fits : ∀ cell ∈ cells.map (Separator.view bytes), keyFits pageSize cell.1 = true)
    (insertedFits : ∀ cell ∈ inserted, keyFits pageSize cell.1 = true) :
    ∀ cell ∈ (spliceChild leftmost (cells.map (Separator.view bytes)) newChild inserted index).2,
      keyFits pageSize cell.1 = true := by
  intro cell member
  have key : cell.1 ∈ (spliceChild leftmost (cells.map (Separator.view bytes)) newChild inserted
      index).2.map Prod.fst := mem_map_of_mem member
  rw [spliceChild_keys, mem_append, mem_append] at key
  have old : ∀ known ∈ (cells.map (Separator.view bytes)).map Prod.fst,
      keyFits pageSize known = true := by
    intro known isKnown
    obtain ⟨found, inCells, rfl⟩ := mem_map.mp isKnown
    exact fits found inCells
  rcases key with (inFront | isNew) | inBack
  · exact old _ (mem_of_mem_take inFront)
  · obtain ⟨found, inInserted, isKey⟩ := mem_map.mp isNew
    exact isKey ▸ insertedFits found inInserted
  · exact old _ (mem_of_mem_drop inBack)

theorem absorbOutcome_spec (committed : Pages) {before taken slotted : CowBTree} {newId idx : Nat}
    {wasDirty : Bool} {bytes : Bytes} (leftmost : Nat) {outcome : InsertOutcome}
    (slot : Slotted before slotted id newId) (isSlot : taken.slotFor id wasDirty = (newId, slotted))
    (takenSize : taken.pageSize = before.pageSize) (valid : id ≠ 0)
    (issued : id < before.pendingNext) (bound : idx ≤ cells.length)
    (size : internalSize bytes cells ≤ before.pageSize)
    (fits : ∀ cell ∈ cells.map (Separator.view bytes), keyFits before.pageSize cell.1 = true)
    (outcomeFits : ∀ cell ∈ outcome.cells, keyFits before.pageSize cell.1 = true) :
    ∃ result after, taken.absorbOutcome committed id wasDirty bytes leftmost cells idx outcome =
        .ok (result, after) ∧
      Grown before after {id} ∧ (∀ cell ∈ result.cells, keyFits before.pageSize cell.1 = true) ∧
      ∀ height low high contents below, before.Tidy ->
        Spine (Subtree before.pageSize (before.pages committed) height) low high
          (spliceChild leftmost (cells.map (Separator.view bytes)) outcome.child outcome.cells
            idx).1
          (spliceChild leftmost (cells.map (Separator.view bytes)) outcome.child outcome.cells
            idx).2 contents below ->
        (∀ other ∈ below, other < before.pendingNext) -> id ∉ below ->
        Yields committed before after (insert id below) (height + 1) low high result.child
          result.cells contents := by
  have splicedFits := spliced_fits leftmost outcome.child idx fits outcomeFits
  have splicedSize := spliced_size leftmost outcome.child idx bytes cells outcome.cells
  cases outcome with
  | replaced newChild =>
    simp only [InsertOutcome.child, InsertOutcome.cells] at splicedFits splicedSize ⊢
    rw [<- replaceChild_view bound] at splicedFits splicedSize ⊢
    let node : Node := .internal bytes (replaceChild cells leftmost idx newChild).2
      (replaceChild cells leftmost idx newChild).1
    have nodeSize : internalSize bytes (replaceChild cells leftmost idx newChild).1 ≤
        before.pageSize := by
      rw [internalSize_eq]
      simpa using splicedSize.trans_le size
    refine ⟨.replaced newId, slotted.putNode newId node, ?_, slot.put_grown node, by simp, ?_⟩
    · simp only [absorbOutcome, isSlot]
      rfl
    intro height low high contents below tidy spine old outside
    have names := inner_below before spine old (Nat.zero_lt_of_lt issued)
    refine ⟨slot.put_tidy tidy issued node nodeSize (names.mono slot.next_le),
      insert newId below, ?_, slot.rests_within issued⟩
    exact .last (slot.put_inner committed (slot.newId_ne_zero valid (Nat.zero_lt_of_lt issued))
      nodeSize splicedFits spine old outside)
  | split left right separator =>
    have separatorFits := (keyFits_iff _ _).mp (outcomeFits _ (mem_singleton.mpr rfl))
    simp only [InsertOutcome.child, InsertOutcome.cells] at splicedFits splicedSize separatorFits ⊢
    rw [<- placeSplit_view bound] at splicedFits splicedSize ⊢
    simp only [absorbOutcome]
    refine settleInternal_spec committed slot isSlot takenSize valid issued ?_ splicedFits ?_
    · intro isEmpty
      simp only [isEmpty, internalViewSize, internalSize, map_nil, map_cons,
        sum_nil, sum_cons, length_nil, slotSize] at splicedSize
      omega
    · rw [internalSize_eq, splicedSize]
      simp only [map_cons, map_nil, sum_cons, sum_nil, slotSize, internalCellSize]
      omega

theorem inner_absorbs (valid : id ≠ 0)
    (inner : InnerHolds self.pageSize (self.pages committed) (Subtree self.pageSize (self.pages
      committed) height) id low high contents below)
    (issued : ∀ other ∈ insert id below, other < self.pendingNext) (outside : id ∉ below)
    (inside : Within low high key) :
    ∃ (bytes : Bytes) (leftmost : Nat) (cells : List Separator) (branch : Branch),
      (self.pages committed).node id = .ok (.internal bytes leftmost cells) ∧
      branch.Routed self.pageSize (self.pages committed) height key bytes leftmost cells low high
        contents below ∧
      ∀ (middle : CowBTree) (outcome : InsertOutcome), Grown self middle branch.childRests ->
        (∀ cell ∈ outcome.cells, keyFits self.pageSize cell.1 = true) ->
        ∃ (wasDirty : Bool) (taken : CowBTree) (result : InsertOutcome) (after : CowBTree),
          middle.takeNodeForWrite committed id =
            .ok (.internal bytes leftmost cells, wasDirty, taken) ∧
          taken.absorbOutcome committed id wasDirty bytes leftmost cells
            (childIndex bytes cells key) outcome = .ok (result, after) ∧
          Grown self after (insert id below) ∧ middle.pendingNext ≤ after.pendingNext ∧
          (∀ cell ∈ result.cells, keyFits self.pageSize cell.1 = true) ∧
          ∀ taller entries, Yields committed self middle branch.childRests taller branch.low
            branch.high outcome.child outcome.cells entries ->
            ∃ tallest, Yields committed self after (insert id below) tallest low high
              result.child result.cells (branch.front ++ entries ++ branch.back) := by
  obtain ⟨bytes, leftmost, cells, branch, found, size, fits, routed⟩ := inner.routed inside
  have idIssued := issued id (Finset.mem_insert_self _ _)
  have belowIssued : ∀ other ∈ below, other < self.pendingNext := fun other member =>
    issued other (Finset.mem_insert_of_mem member)
  have childWithin : branch.childRests ⊆ below := routed.rests ▸ Finset.subset_union_right
  have childOutside : id ∉ branch.childRests := fun member => outside (childWithin member)
  refine ⟨bytes, leftmost, cells, branch, found, routed, ?_⟩
  intro middle outcome grown outcomeFits
  have stillFound : (middle.pages committed).node id = .ok (.internal bytes leftmost cells) :=
    (pages_congr committed grown.pageSize (grown.elsewhere id idIssued childOutside)).1.trans found
  obtain ⟨wasDirty, taken, newId, slotted, isTaken, isSlot, takenSize, slot⟩ :=
    take_slot stillFound
  have middleIssued : id < middle.pendingNext := idIssued.trans_le grown.next_le
  rw [<- grown.pageSize] at size fits outcomeFits
  obtain ⟨result, after, absorbed, absorbGrown, resultFits, yields⟩ :=
    absorbOutcome_spec committed leftmost slot isSlot takenSize valid middleIssued
      routed.index_le size fits outcomeFits
  refine ⟨wasDirty, taken, result, after, isTaken, absorbed, ?_, absorbGrown.next_le, ?_, ?_⟩
  · refine (grown.owning (childWithin.trans (Finset.subset_insert _ _))).trans absorbGrown ?_
    simp
  · rwa [grown.pageSize] at resultFits
  intro taller entries childYields
  obtain ⟨tallest, rests, spine, origin⟩ := respliced routed grown belowIssued childYields
  rw [<- grown.pageSize] at spine
  have absorbedYields := yields tallest low high _ rests childYields.tidy spine
    (fun other member => (origin other member).elim (fun inBelow =>
      (belowIssued other inBelow).trans_le grown.next_le) fun fresh => fresh.2)
    (fun member => (origin id member).elim outside fun fresh => by omega)
  refine ⟨tallest + 1, absorbedYields.before grown absorbGrown.next_le ?_⟩
  intro other member
  rcases Finset.mem_insert.mp member with rfl | inRests
  · exact .inl (Finset.mem_insert_self _ _)
  · exact (origin other inRests).imp_left Finset.mem_insert_of_mem

theorem insert_inner {depth : Nat} (valid : id ≠ 0)
    (inner : InnerHolds self.pageSize (self.pages committed) (Subtree self.pageSize (self.pages
      committed) height) id low high contents below)
    (issued : ∀ other ∈ insert id below, other < self.pendingNext) (outside : id ∉ below)
    (inside : Within low high key)
    (ih : ∀ child childLow childHigh entries rests, Subtree self.pageSize (self.pages committed)
      height child childLow childHigh entries rests → (∀ other ∈ rests, other < self.pendingNext) →
      Within childLow childHigh key -> ∃ outcome after, insertInto committed key value depth self
      child = .ok (outcome, after) ∧ Inserted committed self after rests childLow childHigh outcome
      entries key value) :
    ∃ outcome after, insertInto committed key value (depth + 1) self id = .ok (outcome, after) ∧
      Inserted committed self after (insert id below) low high outcome contents key value := by
  obtain ⟨bytes, leftmost, cells, branch, found, routed, absorbs⟩ :=
    inner_absorbs valid inner issued outside inside
  obtain ⟨childOutcome, middle, isChild, grown, childFits, childYields⟩ :=
    ih branch.child branch.low branch.high branch.middle branch.childRests routed.subtree
      (fun other member => issued other (Finset.mem_insert_of_mem
        (routed.rests ▸ Finset.mem_union_right _ member))) routed.inside
  obtain ⟨wasDirty, taken, outcome, after, isTaken, absorbed, wholeGrown, next, fits, yields⟩ :=
    absorbs middle childOutcome grown childFits
  refine ⟨outcome, after, ?_, ⟨wholeGrown, fits, ?_⟩⟩
  · rw [insertInto, if_neg valid, descend_internal key found, routed.pointer]
    change (insertInto committed key value depth self branch.child >>= _) = _
    rw [isChild]
    change (middle.takeNodeForWrite committed id >>= _) = _
    rw [isTaken]
    exact absorbed
  · intro room tidy
    obtain ⟨taller, entries, childYield, overlay⟩ := childYields (next.trans room) tidy
    obtain ⟨tallest, whole⟩ := yields taller entries childYield
    refine ⟨tallest, _, whole, ?_⟩
    rw [routed.entries]
    exact overlay.frame routed.front routed.back

theorem insertInto_spec (fits : keyFits self.pageSize key = true) (page : self.pageSize < 2 ^ 16)
    (short : value.length ≤ maxRecordLen self.pageSize) (positive : 0 < self.pendingNext)
    {depth : Nat} {entries : List (Bytes × Bytes)} {rests : Finset Nat}
    (subtree : Subtree self.pageSize (self.pages committed) height id low high entries rests)
    (issued : ∀ other ∈ rests, other < self.pendingNext) (inside : Within low high key)
    (deep : height < depth) :
    ∃ outcome after, insertInto committed key value depth self id = .ok (outcome, after) ∧
      Inserted committed self after rests low high outcome entries key value := by
  induction depth generalizing height id low high entries rests with
  | zero => omega
  | succ depth ih =>
    by_cases valid : id = 0
    · subst valid
      obtain ⟨rfl, rfl⟩ := subtree.of_zero
      exact insert_empty fits page short positive inside depth
    · obtain ⟨less, below, rfl, rfl, outside, leaf | inner⟩ := subtree.of_ne valid
      · exact insert_leaf fits page short valid leaf issued outside inside depth
      · refine insert_inner valid inner issued outside inside ?_
        intro child childLow childHigh entries rests childTree childIssued childInside
        exact ih childTree childIssued childInside (by omega)

end Insert

end CowBTree

end InlaySql.Btree
