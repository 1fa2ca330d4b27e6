import InlaySql.Btree.Search
import InlaySql.Btree.Tree
import InlaySql.Lib.Fence

/-!
# What a node says

A `NodeView` is a node with its ranges resolved: it does not depend on the buffer
the keys are borrowed from, nor on whether a page is held decoded or encoded. The
module gives each operation on a node's cells as an operation on the view.
-/

namespace InlaySql.Btree

open List Lib

/-- A leaf value with its inline bytes resolved. -/
inductive ValueView where
  | inline (bytes : Bytes)
  | overflow (first : Nat) (length : Nat)
  deriving DecidableEq, Repr

/-- A node with its keys and inline values resolved. -/
inductive NodeView where
  | leaf (cells : List (Bytes × ValueView))
  | internal (leftmost : Nat) (cells : List (Bytes × Nat))
  deriving DecidableEq, Repr

def ValueRef.view (source : Bytes) : ValueRef -> ValueView
  | .inline range => .inline (range.of source)
  | .owned value => .inline value
  | .overflow first length => .overflow first length

def Entry.view (source : Bytes) (entry : Entry) : Bytes × ValueView :=
  (keyBytes source entry.key, entry.value.view source)

def Separator.view (source : Bytes) (cell : Separator) : Bytes × Nat :=
  (keyBytes source cell.key, cell.child)

def Node.view : Node -> NodeView
  | .leaf bytes entries => .leaf (entries.map (Entry.view bytes))
  | .internal bytes leftmost cells => .internal leftmost (cells.map (Separator.view bytes))

/-- An inline range stays inside the buffer, so its length is what it resolves to. -/
def ValueRef.Ranged (source : Bytes) : ValueRef -> Prop
  | .inline range => range.start ≤ range.stop ∧ range.stop ≤ source.length
  | .owned _ | .overflow _ _ => True

def Node.Ranged : Node -> Prop
  | .leaf bytes entries => ∀ entry ∈ entries, entry.value.Ranged bytes
  | .internal _ _ _ => True

/-- Bytes a leaf cell occupies, from its view. -/
def ValueView.cellSize (key : Bytes) : ValueView -> Nat
  | .inline bytes => 2 + key.length + 1 + (4 + bytes.length)
  | .overflow _ _ => 2 + key.length + 1 + 16

def leafViewSize (cells : List (Bytes × ValueView)) : Nat :=
  headerSize + slotSize * cells.length + (cells.map fun cell => cell.2.cellSize cell.1).sum

def internalViewSize (cells : List (Bytes × Nat)) : Nat :=
  headerSize + slotSize * cells.length + (cells.map fun cell => internalCellSize cell.1).sum

theorem ByteRange.length_of {range : ByteRange} {bytes : Bytes}
    (inside : range.start ≤ range.stop ∧ range.stop ≤ bytes.length) :
    (range.of bytes).length = range.len := by
  rw [ByteRange.of, length_slice]
  unfold ByteRange.len
  omega

theorem leafCellSize_eq {source : Bytes} {key : Bytes} {value : ValueRef}
    (ranged : value.Ranged source) : leafCellSize key value = (value.view source).cellSize key := by
  cases value with
  | inline range =>
    simp [leafCellSize, ValueRef.view, ValueView.cellSize, ValueRef.inlineLen,
      ByteRange.length_of ranged]
  | owned value => rfl
  | overflow first length => rfl

theorem leafSize_eq {source : Bytes} {entries : List Entry}
    (ranged : ∀ entry ∈ entries, entry.value.Ranged source) :
    leafSize source entries = leafViewSize (entries.map (Entry.view source)) := by
  unfold leafSize leafViewSize
  rw [length_map, map_map]
  congr 2
  apply map_congr_left
  intro entry member
  exact leafCellSize_eq (ranged entry member)

theorem internalSize_eq (source : Bytes) (cells : List Separator) :
    internalSize source cells = internalViewSize (cells.map (Separator.view source)) := by
  unfold internalSize internalViewSize
  rw [length_map, map_map]
  rfl

theorem internalViewSize_keys (cells : List (Bytes × Nat)) :
    internalViewSize cells = headerSize + slotSize * (cells.map Prod.fst).length +
      ((cells.map Prod.fst).map internalCellSize).sum := by
  rw [internalViewSize, length_map, map_map]
  rfl

/-! ## Split points -/

section Split

variable {α β : Type}

theorem splitLoop_spec (pageSize : Nat) (cellSize : α -> Nat) (cells : List α)
    (size split : Nat) (fits : size ≤ pageSize) :
    ∃ taken, splitLoop pageSize cellSize cells size split = split + taken ∧ taken ≤ cells.length ∧
      size + ((cells.take taken).map fun cell => slotSize + cellSize cell).sum ≤ pageSize ∧
      ∀ cell, cells[taken]? = some cell ->
        pageSize < size + ((cells.take (taken + 1)).map fun cell =>
          slotSize + cellSize cell).sum := by
  induction cells generalizing size split with
  | nil => exact ⟨0, by simp [splitLoop, fits]⟩
  | cons cell rest ih =>
    by_cases full : size + (slotSize + cellSize cell) > pageSize
    · refine ⟨0, by simp [splitLoop, full], by simp, by simpa using fits, ?_⟩
      intro found isFound
      simpa using full
    · obtain ⟨taken, result, bound, within, next⟩ :=
        ih (size + (slotSize + cellSize cell)) (split + 1) (by omega)
      refine ⟨taken + 1, ?_, by simpa using bound, ?_, ?_⟩
      · simp only [splitLoop, if_neg full, result]
        omega
      · simpa [Nat.add_assoc] using within
      · intro found isFound
        have bigger := next found (by simpa using isFound)
        simpa [Nat.add_assoc] using bigger

end Split

/-! ## Placing and dropping cells -/

theorem insertIdx_eq_take_drop {α : Type} (cells : List α) (index : Nat) (cell : α)
    (bound : index ≤ cells.length) :
    cells.insertIdx index cell = cells.take index ++ cell :: cells.drop index := by
  induction cells generalizing index with
  | nil =>
    obtain rfl : index = 0 := by simpa using bound
    rfl
  | cons head cells ih =>
    cases index with
    | zero => rfl
    | succ index => simp [ih index (by simpa using bound)]

section Cells

variable {source : Bytes} {entries : List Entry}

theorem entryKey_increasing
    (sorted : ((entries.map (Entry.view source)).map Prod.fst).Pairwise (· < ·)) :
    Increasing (entryKey source entries) entries.length := by
  intro i j less bound
  have pair := (pairwise_iff_getElem.mp sorted) i j (by simp; omega) (by simpa) less
  simpa [entryKey, Entry.view, getElem?_eq_getElem, bound, less.trans bound] using pair

variable (key : Bytes)

theorem searchEntries_splits
    (sorted : ((entries.map (Entry.view source)).map Prod.fst).Pairwise (· < ·)) :
    match searchEntries source entries key with
    | .ok i => ∃ entry, entries[i]? = some entry ∧ keyBytes source entry.key = key ∧
        (∀ cell ∈ (entries.take i).map (Entry.view source), cell.1 < key) ∧
        ∀ cell ∈ (entries.drop (i + 1)).map (Entry.view source), key < cell.1
    | .error i => i ≤ entries.length ∧
        (∀ cell ∈ (entries.take i).map (Entry.view source), cell.1 < key) ∧
        ∀ cell ∈ (entries.drop i).map (Entry.view source), key < cell.1 := by
  have increasing := entryKey_increasing sorted
  have found : Found (entryKey source entries) entries.length key
      (searchEntries source entries key) :=
    searchLoop_found increasing entries.length 0 entries.length (by omega) (by omega) le_rfl
      (by simp) (by omega)
  have keyAt : ∀ i entry, entries[i]? = some entry ->
      entryKey source entries i = keyBytes source entry.key := by
    intro i entry at_
    simp [entryKey, at_]
  have before : ∀ i, i ≤ entries.length -> (∀ j, j < i -> entryKey source entries j < key) ->
      ∀ cell ∈ (entries.take i).map (Entry.view source), cell.1 < key := by
    intro i bound all cell member
    obtain ⟨entry, inside, rfl⟩ := mem_map.mp member
    obtain ⟨j, bound', rfl⟩ := mem_iff_getElem.mp inside
    rw [length_take] at bound'
    have less := all j (by omega)
    rw [keyAt j _ (getElem?_eq_getElem (by omega))] at less
    simpa [Entry.view] using less
  have after : ∀ i, (∀ j, i ≤ j -> j < entries.length -> key < entryKey source entries j) ->
      ∀ cell ∈ (entries.drop i).map (Entry.view source), key < cell.1 := by
    intro i all cell member
    obtain ⟨entry, inside, rfl⟩ := mem_map.mp member
    obtain ⟨j, bound', rfl⟩ := mem_iff_getElem.mp inside
    rw [length_drop] at bound'
    have more := all (i + j) (by omega) (by omega)
    rw [keyAt (i + j) _ (getElem?_eq_getElem (by omega))] at more
    simpa [Entry.view] using more
  cases result : searchEntries source entries key with
  | ok i =>
    rw [result] at found
    obtain ⟨bound, same⟩ := found
    have here := keyAt i _ (getElem?_eq_getElem bound)
    refine ⟨entries[i], getElem?_eq_getElem bound, here ▸ same, ?_, ?_⟩
    · exact before i bound.le fun j less => same ▸ increasing j i less bound
    · exact after (i + 1) fun j more within => same ▸ increasing i j more within
  | error i =>
    rw [result] at found
    exact ⟨found.1, before i found.1 found.2.1, after i found.2.2⟩

/-- Placing an entry puts it between the smaller and the larger keys, in the place
of the one entry that may have had its key. -/
theorem placeEntry_view (value : ValueRef)
    (sorted : ((entries.map (Entry.view source)).map Prod.fst).Pairwise (· < ·)) :
    ∃ front middle back, entries.map (Entry.view source) = front ++ middle ++ back ∧
        (CowBTree.placeEntry source entries key value).map (Entry.view source) =
          front ++ [(key, value.view source)] ++ back ∧
        (∀ cell ∈ front, cell.1 < key) ∧ (∀ cell ∈ back, key < cell.1) ∧
        (∀ cell ∈ middle, cell.1 = key) ∧ middle.length ≤ 1 := by
  have splits := searchEntries_splits key sorted
  unfold CowBTree.placeEntry
  cases result : searchEntries source entries key with
  | ok i =>
    rw [result] at splits
    obtain ⟨entry, found, isKey, below, above⟩ := splits
    obtain ⟨bound, rfl⟩ := List.getElem?_eq_some_iff.mp found
    refine ⟨(entries.take i).map (Entry.view source), [Entry.view source entries[i]],
      (entries.drop (i + 1)).map (Entry.view source), ?_, ?_, below, above, ?_, by simp⟩
    · rw [<- map_singleton, <- map_append, <- map_append, append_assoc,
        singleton_append, <- drop_eq_getElem_cons bound, take_append_drop]
    · simp only
      rw [modify_eq_take_cons_drop bound]
      simp [Entry.view, isKey]
    · intro cell member
      rw [mem_singleton.mp member]
      exact isKey
  | error i =>
    rw [result] at splits
    obtain ⟨bound, below, above⟩ := splits
    refine ⟨(entries.take i).map (Entry.view source), [],
      (entries.drop i).map (Entry.view source), ?_, ?_, below, above, by simp, by simp⟩
    · rw [append_nil, <- map_append, take_append_drop]
    · simp only
      rw [insertIdx_eq_take_drop _ _ _ bound]
      simp [Entry.view, keyBytes]

theorem dropEntry_view
    (sorted : ((entries.map (Entry.view source)).map Prod.fst).Pairwise (· < ·)) :
    ∃ front middle back, entries.map (Entry.view source) = front ++ middle ++ back ∧
        (CowBTree.dropEntry source entries key).map (Entry.view source) = front ++ back ∧
        (∀ cell ∈ front, cell.1 < key) ∧ (∀ cell ∈ back, key < cell.1) ∧
        (∀ cell ∈ middle, cell.1 = key) ∧ middle.length ≤ 1 := by
  have splits := searchEntries_splits key sorted
  unfold CowBTree.dropEntry
  cases result : searchEntries source entries key with
  | ok i =>
    rw [result] at splits
    obtain ⟨entry, found, isKey, below, above⟩ := splits
    obtain ⟨bound, rfl⟩ := List.getElem?_eq_some_iff.mp found
    refine ⟨(entries.take i).map (Entry.view source), [Entry.view source entries[i]],
      (entries.drop (i + 1)).map (Entry.view source), ?_, ?_, below, above, ?_, by simp⟩
    · rw [<- map_singleton, <- map_append, <- map_append, append_assoc,
        singleton_append, <- drop_eq_getElem_cons bound, take_append_drop]
    · simp only
      rw [eraseIdx_eq_take_drop_succ, map_append]
    · intro cell member
      rw [mem_singleton.mp member]
      exact isKey
  | error i =>
    rw [result] at splits
    obtain ⟨bound, below, above⟩ := splits
    refine ⟨(entries.take i).map (Entry.view source), [],
      (entries.drop i).map (Entry.view source), ?_, ?_, below, above, by simp, by simp⟩
    · rw [append_nil, <- map_append, take_append_drop]
    · rw [<- map_append, take_append_drop]

theorem placeEntry_ranged {value : ValueRef} (isRanged : value.Ranged source)
    (ranged : ∀ entry ∈ entries, entry.value.Ranged source) :
    ∀ entry ∈ CowBTree.placeEntry source entries key value, entry.value.Ranged source := by
  intro entry member
  unfold CowBTree.placeEntry at member
  split at member
  · obtain ⟨j, bound, rfl⟩ := mem_iff_getElem.mp member
    rw [getElem_modify]
    split
    · exact isRanged
    · exact ranged _ (getElem_mem _)
  · rcases eq_or_mem_of_mem_insertIdx member with rfl | old
    · exact isRanged
    · exact ranged entry old

theorem dropEntry_ranged (ranged : ∀ entry ∈ entries, entry.value.Ranged source) :
    ∀ entry ∈ CowBTree.dropEntry source entries key, entry.value.Ranged source := by
  intro entry member
  unfold CowBTree.dropEntry at member
  split at member
  · exact ranged entry (mem_of_mem_eraseIdx member)
  · exact ranged entry member

end Cells

/-! ## Routing -/

section Routing

variable {source : Bytes} {cells : List Separator}

theorem childIndex_routes (key : Bytes)
    (sorted : ((cells.map (Separator.view source)).map Prod.fst).Pairwise (· < ·)) :
    Routes (cells.map (Separator.view source)) key (CowBTree.childIndex source cells key) := by
  have increasing : Increasing (separatorKey source cells) cells.length := by
    intro i j less bound
    have pair := (pairwise_iff_getElem.mp sorted) i j (by simp; omega) (by simpa) less
    simpa [separatorKey, Separator.view, getElem?_eq_getElem, bound, less.trans bound] using pair
  obtain ⟨bound, below, above⟩ := routeLoop_splits increasing cells.length 0
    cells.length (by omega) (by omega) le_rfl (by simp) (by omega)
  refine ⟨by simpa [CowBTree.childIndex, routeSeparators] using bound, ?_, ?_⟩
  · intro cell member
    rw [<- map_take] at member
    obtain ⟨entry, inside, rfl⟩ := mem_map.mp member
    obtain ⟨j, within, rfl⟩ := mem_iff_getElem.mp inside
    rw [length_take] at within
    have small := below j (by
      change j < CowBTree.childIndex source cells key
      omega)
    simpa [separatorKey, Separator.view,
      getElem?_eq_getElem (show j < cells.length by omega)] using small
  · intro cell member
    rw [<- map_drop] at member
    obtain ⟨entry, inside, rfl⟩ := mem_map.mp member
    obtain ⟨j, within, rfl⟩ := mem_iff_getElem.mp inside
    rw [length_drop] at within
    have large := above (CowBTree.childIndex source cells key + j) (Nat.le_add_right _ _) (by omega)
    simpa [separatorKey, Separator.view, getElem?_eq_getElem
      (show CowBTree.childIndex source cells key + j < cells.length by omega)] using large

variable {leftmost idx : Nat}

theorem childAt_slot (bound : idx ≤ cells.length) :
    childSlot leftmost (cells.map (Separator.view source)) idx =
      some (CowBTree.childAt cells leftmost idx) := by
  cases idx with
  | zero => rfl
  | succ idx =>
    have inside : idx < cells.length := bound
    simp [childSlot, CowBTree.childAt, Separator.view, getElem?_eq_getElem inside]

theorem replaceChild_view {newChild : Nat} (bound : idx ≤ cells.length) :
    ((CowBTree.replaceChild cells leftmost idx newChild).2,
      (CowBTree.replaceChild cells leftmost idx newChild).1.map (Separator.view source)) =
      spliceChild leftmost (cells.map (Separator.view source)) newChild [] idx := by
  cases idx with
  | zero => rfl
  | succ idx =>
    have inside : idx < cells.length := bound
    have inside' : idx < (cells.map (Separator.view source)).length := by simpa using inside
    simp only [CowBTree.replaceChild, spliceChild, Nat.add_one_ne_zero, if_false,
      Nat.add_sub_cancel, Prod.mk.injEq, true_and, nil_append]
    rw [modify_eq_take_cons_drop inside, modify_eq_take_cons_drop inside']
    simp [Separator.view, List.take_append, take_of_length_le, Nat.le_of_lt inside]

theorem placeSplit_view {left right : Nat} {separator : Bytes} (bound : idx ≤ cells.length) :
    ((CowBTree.placeSplit cells leftmost idx left right separator).2,
      (CowBTree.placeSplit cells leftmost idx left right separator).1.map (Separator.view source)) =
      spliceChild leftmost (cells.map (Separator.view source)) left [(separator, right)] idx := by
  cases idx with
  | zero =>
    simp [CowBTree.placeSplit, CowBTree.replaceChild, spliceChild, Separator.view, keyBytes]
  | succ idx =>
    have inside : idx < cells.length := bound
    have inside' : idx < (cells.map (Separator.view source)).length := by simpa using inside
    have size : idx + 1 ≤ (cells.modify idx fun cell => { cell with child := left }).length := by
      simpa using inside
    simp only [CowBTree.placeSplit, CowBTree.replaceChild, spliceChild, Nat.add_one_ne_zero,
      if_false, Nat.add_sub_cancel, Prod.mk.injEq, true_and]
    rw [insertIdx_eq_take_drop _ _ _ size, modify_eq_take_cons_drop inside,
      modify_eq_take_cons_drop inside']
    simp [Separator.view, keyBytes, List.take_append, drop_append,
      take_of_length_le, Nat.le_of_lt inside]

end Routing

end InlaySql.Btree
