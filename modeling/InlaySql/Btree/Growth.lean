import InlaySql.Btree.Codec
import InlaySql.Btree.Subtree

/-!
# What a write may change

`Grown` says what an operation of the open transaction leaves alone: every field but
the dirty pages and the page counter, and every dirty page that is neither new nor
owned by the subtree being changed. `Tidy` is what holds of the dirty pages
themselves: each fits its page and names only pages already issued.
-/

namespace InlaySql.Btree

open Lib Wal

namespace CowBTree

/-- `after` differs from `before` at most in new pages and in those of `owned`. -/
structure Grown (before after : CowBTree) (owned : Finset Nat) : Prop where
  pageSize : after.pageSize = before.pageSize
  root : after.root = before.root
  nextPageId : after.nextPageId = before.nextPageId
  pendingRoot : after.pendingRoot = before.pendingRoot
  hasPending : after.hasPending = before.hasPending
  pendingOps : after.pendingOps = before.pendingOps
  next_le : before.pendingNext ≤ after.pendingNext
  elsewhere : ∀ id, id < before.pendingNext -> id ∉ owned -> after.dirty[id]? = before.dirty[id]?
  mine : ∀ id, id < before.pendingNext -> id ∈ after.dirty -> id ∈ before.dirty

theorem Grown.refl (self : CowBTree) (owned : Finset Nat) : Grown self self owned := by
  constructor <;> simp

variable {before after : CowBTree} {owned : Finset Nat} {id : Nat}

theorem Grown.trans {middle : CowBTree} {later : Finset Nat} (first : Grown before middle owned)
    (second : Grown middle after later)
    (within : ∀ id ∈ later, id < before.pendingNext -> id ∈ owned) : Grown before after owned where
  pageSize := second.pageSize.trans first.pageSize
  root := second.root.trans first.root
  nextPageId := second.nextPageId.trans first.nextPageId
  pendingRoot := second.pendingRoot.trans first.pendingRoot
  hasPending := second.hasPending.trans first.hasPending
  pendingOps := second.pendingOps.trans first.pendingOps
  next_le := first.next_le.trans second.next_le
  elsewhere id old outside := by
    rw [second.elsewhere id (old.trans_le first.next_le) fun inLater => outside (within id inLater old)]
    exact first.elsewhere id old outside
  mine id old member := first.mine id old (second.mine id (old.trans_le first.next_le) member)

theorem Grown.owning {more : Finset Nat} (grown : Grown before after owned)
    (subset : owned ⊆ more) : Grown before after more :=
  { grown with
    elsewhere := fun id old outside => grown.elsewhere id old fun owns => outside (subset owns) }

theorem pages_congr (committed : Pages) (size : after.pageSize = before.pageSize)
    (same : after.dirty[id]? = before.dirty[id]?) :
    (after.pages committed).node id = (before.pages committed).node id ∧
      (after.pages committed).overflow id = (before.pages committed).overflow id := by
  simp only [pages, nodeAt, readOverflowPage, same, size, and_self]

theorem Grown.keeps {ids : Finset Nat} (grown : Grown before after owned) (committed : Pages)
    (old : ∀ id ∈ ids, id < before.pendingNext ∧ id ∉ owned) :
    (before.pages committed).Keeps (after.pages committed) ids := by
  intro id member
  have same := pages_congr committed grown.pageSize
    (grown.elsewhere id (old id member).1 (old id member).2)
  refine ⟨?_, fun link found => same.2.trans found⟩
  rintro view ⟨node, found, ranged, isView⟩
  exact ⟨node, same.1.trans found, ranged, isView⟩

/-- What holds of the dirty pages of an open transaction. -/
structure Tidy (tree : CowBTree) : Prop where
  below : ∀ (id : Nat) page, tree.dirty[id]? = some page -> id < tree.pendingNext
  decoded : ∀ (id : Nat) (node : Node), tree.dirty[id]? = some (.decoded node) ->
    node.Fits tree.pageSize ∧ node.view.Below tree.pendingNext
  encoded : ∀ (id : Nat) (bytes : Bytes), tree.dirty[id]? = some (.encoded bytes) ->
    bytes.length = tree.pageSize

/-- The dirty map of `after` is that of `before` with `id` set to `page`. -/
def Sets (before after : CowBTree) (id : Nat) (page : DirtyPage) : Prop :=
  ∀ other, after.dirty[other]? = if other = id then some page else before.dirty[other]?

theorem putNode_sets (self : CowBTree) (id : Nat) (node : Node) :
    Sets self (self.putNode id node) id (.decoded node) := by
  intro other
  simp only [putNode, Std.TreeMap.getElem?_insert, Nat.compare_eq_eq, eq_comm (a := id)]

theorem Tidy.set {page : DirtyPage} (tidy : before.Tidy) (size : after.pageSize = before.pageSize)
    (next : before.pendingNext ≤ after.pendingNext) (sets : Sets before after id page)
    (issued : id < after.pendingNext) (decoded : ∀ node, page = .decoded node ->
      node.Fits after.pageSize ∧ node.view.Below after.pendingNext)
    (encoded : ∀ bytes, page = .encoded bytes -> bytes.length = after.pageSize) : after.Tidy where
  below other found isFound := by
    rw [sets other] at isFound
    split at isFound
    · rename_i same
      exact same ▸ issued
    · exact (tidy.below other found isFound).trans_le next
  decoded other node isFound := by
    rw [sets other] at isFound
    split at isFound
    · exact decoded node (by simpa using isFound)
    · have kept := tidy.decoded other node isFound
      exact ⟨size ▸ kept.1, kept.2.mono next⟩
  encoded other bytes isFound := by
    rw [sets other] at isFound
    split at isFound
    · exact encoded bytes (by simpa using isFound)
    · exact size ▸ tidy.encoded other bytes isFound

/-- Lifting a page out and finding the slot for its next version: its own when it was
dirty, a fresh one when it was committed. -/
structure Slotted (before after : CowBTree) (source newId : Nat) : Prop where
  pageSize : after.pageSize = before.pageSize
  root : after.root = before.root
  nextPageId : after.nextPageId = before.nextPageId
  pendingRoot : after.pendingRoot = before.pendingRoot
  hasPending : after.hasPending = before.hasPending
  pendingOps : after.pendingOps = before.pendingOps
  others : ∀ id, id ≠ newId -> after.dirty[id]? = before.dirty[id]?
  place : (newId = source ∧ source ∈ before.dirty ∧ after.pendingNext = before.pendingNext) ∨
    (newId = before.pendingNext ∧ after.pendingNext = before.pendingNext + 1)

theorem getElem?_erase_of_ne {dirty : Std.TreeMap Nat DirtyPage} {other : Nat}
    (distinct : other ≠ id) : (dirty.erase id)[other]? = dirty[other]? := by
  rw [Std.TreeMap.getElem?_erase, if_neg]
  rw [Nat.compare_eq_eq]
  exact distinct.symm

theorem take_slot {committed : Pages} {self : CowBTree} {node : Node}
    (shown : (self.pages committed).node id = .ok node) :
    ∃ wasDirty taken newId slotted,
      self.takeNodeForWrite committed id = .ok (node, wasDirty, taken) ∧
        taken.slotFor id wasDirty = (newId, slotted) ∧ taken.pageSize = self.pageSize ∧
        Slotted self slotted id newId := by
  simp only [pages, nodeAt] at shown
  cases held : self.dirty[id]? with
  | none =>
    rw [held] at shown
    have absent : id ∉ self.dirty := by
      rw [Std.TreeMap.mem_iff_isSome_getElem?, held]
      simp
    refine ⟨false, self, self.pendingNext, { self with pendingNext := self.pendingNext + 1 },
      ?_, ?_, rfl, ?_⟩
    · simp only [takeNodeForWrite, held, shown]
      rfl
    · simp [slotFor, supersede, absent, allocPage]
    · exact ⟨rfl, rfl, rfl, rfl, rfl, rfl, fun _ _ => rfl, .inr ⟨rfl, rfl⟩⟩
  | some page =>
    have present : id ∈ self.dirty := by
      rw [Std.TreeMap.mem_iff_isSome_getElem?, held]
      rfl
    refine ⟨true, { self with dirty := self.dirty.erase id }, id,
      { self with dirty := self.dirty.erase id }, ?_, rfl, rfl, ?_⟩
    · rw [held] at shown
      cases page with
      | encoded bytes =>
        simp only [takeNodeForWrite, held]
        simp only at shown
        rw [shown]
        rfl
      | decoded found =>
        simp only [takeNodeForWrite, held]
        simp only [Except.ok.injEq] at shown
        rw [shown]
    · exact ⟨rfl, rfl, rfl, rfl, rfl, rfl, fun _ distinct => getElem?_erase_of_ne distinct,
        .inl ⟨rfl, present, rfl⟩⟩

section Slotted

variable {before slotted : CowBTree} {source newId : Nat}

section

variable (slot : Slotted before slotted source newId)

include slot

theorem Slotted.next_le : before.pendingNext ≤ slotted.pendingNext := by
  rcases slot.place with ⟨-, -, same⟩ | ⟨-, more⟩ <;> omega

theorem Slotted.newId_lt (issued : source < before.pendingNext) : newId < slotted.pendingNext := by
  rcases slot.place with ⟨rfl, -, same⟩ | ⟨rfl, more⟩ <;> omega

theorem Slotted.fresh : newId = source ∨ newId = before.pendingNext :=
  slot.place.imp (fun own => own.1) fun new => new.1

theorem Slotted.put_sets (node : Node) :
    Sets before (slotted.putNode newId node) newId (.decoded node) := by
  intro other
  rw [putNode_sets slotted newId node other]
  by_cases same : other = newId
  · rw [if_pos same, if_pos same]
  · rw [if_neg same, if_neg same, slot.others other same]

theorem Slotted.put_grown (node : Node) : Grown before (slotted.putNode newId node) {source} where
  pageSize := slot.pageSize
  root := slot.root
  nextPageId := slot.nextPageId
  pendingRoot := slot.pendingRoot
  hasPending := slot.hasPending
  pendingOps := slot.pendingOps
  next_le := slot.next_le
  elsewhere id old outside := by
    rw [slot.put_sets node id, if_neg]
    rintro rfl
    rcases slot.fresh with isSource | isNew
    · exact outside (by simp [isSource])
    · omega
  mine id old member := by
    rw [Std.TreeMap.mem_iff_isSome_getElem?, slot.put_sets node id] at member
    split at member
    · rename_i same
      rcases slot.place with ⟨isSource, present, -⟩ | ⟨isNew, -⟩
      · rwa [same, isSource]
      · omega
    · rwa [Std.TreeMap.mem_iff_isSome_getElem?]

theorem Slotted.put_tidy (tidy : before.Tidy) (issued : source < before.pendingNext) (node : Node)
    (fits : node.Fits before.pageSize) (below : node.view.Below slotted.pendingNext) :
    (slotted.putNode newId node).Tidy := by
  refine tidy.set slot.pageSize slot.next_le (slot.put_sets node) (slot.newId_lt issued) ?_ ?_
  · rintro _ ⟨⟩
    exact ⟨slot.pageSize.symm ▸ fits, below⟩
  · simp

theorem Slotted.put_shows (committed : Pages) (node : Node) (ranged : node.Ranged) :
    ((slotted.putNode newId node).pages committed).Shows newId node.view := by
  have stored := slot.put_sets node newId
  rw [if_pos rfl] at stored
  exact ⟨node, by simp [pages, nodeAt, stored], ranged, rfl⟩

end

end Slotted

end CowBTree

end InlaySql.Btree
