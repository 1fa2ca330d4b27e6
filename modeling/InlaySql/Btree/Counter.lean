import InlaySql.Btree.Tree
import InlaySql.Lib.Fallible

/-!
# The page counter

No operation of a transaction moves its page counter back or closes it, whatever
pages it reads.
-/

namespace InlaySql.Btree

open Lib

namespace CowBTree

/-- Everything of a handle but its dirty pages, its pending root and its counter. -/
def frame (self : CowBTree) : Nat × Nat × Nat × Bool × Std.TreeMap Bytes (Option Bytes) bytesCmp :=
  (self.pageSize, self.root, self.nextPageId, self.hasPending, self.pendingOps)

/-- `after` is the same transaction, open or not, with a counter no smaller. -/
structure Advances (before after : CowBTree) : Prop where
  next_le : before.pendingNext ≤ after.pendingNext
  frame : after.frame = before.frame

theorem Advances.refl (self : CowBTree) : self.Advances self := ⟨le_rfl, rfl⟩

theorem Advances.trans {before middle after : CowBTree} (first : before.Advances middle)
    (second : middle.Advances after) : before.Advances after :=
  ⟨first.next_le.trans second.next_le, second.frame.trans first.frame⟩

variable {committed : Pages} {self after : CowBTree} {key value : Bytes} {id : Nat}

variable {wasDirty : Bool} {bytes : Bytes} {outcome : InsertOutcome} {cells : List Separator}

theorem takeNodeForWrite_advances {node : Node}
    (taken : self.takeNodeForWrite committed id = .ok (node, wasDirty, after)) :
    self.Advances after := by
  unfold takeNodeForWrite at taken
  split at taken
  · obtain ⟨decoded, -, result⟩ := bind_eq_ok taken
    cases result
    exact ⟨le_rfl, rfl⟩
  · cases taken
    exact ⟨le_rfl, rfl⟩
  · obtain ⟨decoded, -, result⟩ := bind_eq_ok taken
    cases result
    exact .refl self

section

variable (self : CowBTree)

theorem supersede_advances (source : Nat) : self.Advances (self.supersede source) := by
  unfold supersede
  split <;> exact ⟨le_rfl, rfl⟩

theorem allocPage_advances : self.Advances self.allocPage.2 :=
  ⟨Nat.le_succ _, rfl⟩

theorem slotFor_advances (source : Nat) (wasDirty : Bool) :
    self.Advances (self.slotFor source wasDirty).2 := by
  unfold slotFor
  split
  · exact .refl self
  · exact (self.supersede_advances source).trans (allocPage_advances _)

theorem allocPages_advances (count : Nat) : self.Advances (self.allocPages count).2 := by
  induction count generalizing self with
  | zero => exact .refl self
  | succ count ih => exact self.allocPage_advances.trans (ih self.allocPage.2)

end

theorem writeChain_advances (ids : List Nat) (parts : List Bytes)
    (written : self.writeChain ids parts = .ok after) : self.Advances after := by
  induction ids generalizing self parts with
  | nil =>
    cases written
    exact .refl _
  | cons first ids ih =>
    cases parts with
    | nil =>
      cases written
      exact .refl _
    | cons part parts =>
      obtain ⟨bytes, -, rest⟩ := bind_eq_ok written
      have later := ih parts rest
      exact ⟨later.next_le, later.frame⟩

theorem storeValue_advances {stored : ValueRef}
    (written : self.storeValue key value = .ok (stored, after)) : self.Advances after := by
  unfold storeValue at written
  split at written
  · cases written
    exact .refl self
  · obtain ⟨chained, isChained, result⟩ := bind_eq_ok written
    cases result
    exact (allocPages_advances self _).trans (writeChain_advances _ _ isChained)

theorem reserveSplitPage_advances {left right : Nat} {node whole : Node}
    (reserved : self.reserveSplitPage committed left whole = .ok (right, node, after)) :
    self.Advances after := by
  obtain ⟨⟨taken, wasDirty, lifted⟩, isTaken, result⟩ := bind_eq_ok reserved
  cases result
  have later := takeNodeForWrite_advances isTaken
  exact ⟨(Nat.le_succ _).trans later.next_le, later.frame⟩

theorem settleLeaf_advances {entries : List Entry}
    (settled : self.settleLeaf committed id wasDirty bytes entries = .ok (outcome, after)) :
    self.Advances after := by
  have slotted := slotFor_advances self id wasDirty
  unfold settleLeaf at settled
  split at settled
  · cases settled
    exact ⟨slotted.next_le, slotted.frame⟩
  · obtain ⟨⟨right, node, reserved⟩, isReserved, result⟩ := bind_eq_ok settled
    have later := slotted.trans (reserveSplitPage_advances isReserved)
    cases node with
    | internal => cases result
    | leaf =>
      cases result
      exact ⟨later.next_le, later.frame⟩

theorem settleInternal_advances {leftmost : Nat}
    (settled : self.settleInternal committed id wasDirty bytes leftmost cells =
      .ok (outcome, after)) : self.Advances after := by
  have slotted := slotFor_advances self id wasDirty
  unfold settleInternal at settled
  split at settled
  · cases settled
    exact ⟨slotted.next_le, slotted.frame⟩
  · obtain ⟨⟨right, node, reserved⟩, isReserved, result⟩ := bind_eq_ok settled
    have later := slotted.trans (reserveSplitPage_advances isReserved)
    cases node with
    | leaf => cases result
    | internal =>
      cases result
      exact ⟨later.next_le, later.frame⟩

theorem absorbOutcome_advances {leftmost idx : Nat} {result : InsertOutcome}
    (absorbed : self.absorbOutcome committed id wasDirty bytes leftmost cells idx outcome =
      .ok (result, after)) : self.Advances after := by
  cases outcome with
  | replaced newChild =>
    have slotted := slotFor_advances self id wasDirty
    cases absorbed
    exact ⟨slotted.next_le, slotted.frame⟩
  | split left right separator => exact settleInternal_advances absorbed

theorem insertInto_advances {depth : Nat}
    (inserted : insertInto committed key value depth self id = .ok (outcome, after)) :
    self.Advances after := by
  induction depth generalizing self id outcome after with
  | zero => cases inserted
  | succ depth ih =>
    rw [insertInto] at inserted
    split at inserted
    · obtain ⟨⟨stored, written⟩, isWritten, result⟩ := bind_eq_ok inserted
      have stores := storeValue_advances isWritten
      cases result
      exact ⟨stores.next_le.trans (Nat.le_succ _), stores.frame⟩
    · obtain ⟨descent, -, rest⟩ := bind_eq_ok inserted
      cases descent with
      | internal idx child =>
        obtain ⟨⟨childOutcome, middle⟩, isChild, rest⟩ := bind_eq_ok rest
        obtain ⟨⟨node, wasDirty, taken⟩, isTaken, rest⟩ := bind_eq_ok rest
        have first := (ih isChild).trans (takeNodeForWrite_advances isTaken)
        cases node with
        | leaf => cases rest
        | internal => exact first.trans (absorbOutcome_advances rest)
      | leaf =>
        obtain ⟨⟨stored, written⟩, isWritten, rest⟩ := bind_eq_ok rest
        obtain ⟨⟨node, wasDirty, taken⟩, isTaken, rest⟩ := bind_eq_ok rest
        have first := (storeValue_advances isWritten).trans (takeNodeForWrite_advances isTaken)
        cases node with
        | internal => cases rest
        | leaf => exact first.trans (settleLeaf_advances rest)

theorem deleteFrom_advances {depth newId : Nat}
    (deleted : deleteFrom committed key depth self id = .ok (newId, after)) :
    self.Advances after := by
  induction depth generalizing self id newId after with
  | zero => cases deleted
  | succ depth ih =>
    rw [deleteFrom] at deleted
    split at deleted
    · cases deleted
      exact .refl self
    · obtain ⟨descent, -, rest⟩ := bind_eq_ok deleted
      cases descent with
      | internal idx child =>
        obtain ⟨⟨newChild, middle⟩, isChild, rest⟩ := bind_eq_ok rest
        obtain ⟨⟨node, wasDirty, taken⟩, isTaken, rest⟩ := bind_eq_ok rest
        have first := (ih isChild).trans (takeNodeForWrite_advances isTaken)
        cases node with
        | leaf => cases rest
        | internal =>
          have later := first.trans (slotFor_advances taken id wasDirty)
          cases rest
          exact ⟨later.next_le, later.frame⟩
      | leaf =>
        obtain ⟨⟨node, wasDirty, taken⟩, isTaken, rest⟩ := bind_eq_ok rest
        have first := takeNodeForWrite_advances isTaken
        cases node with
        | internal => cases rest
        | leaf bytes entries =>
          simp only at rest
          split at rest
          · cases rest
            unfold supersedeTaken
            split
            · exact first
            · exact first.trans (supersede_advances taken id)
          · have later := first.trans (slotFor_advances taken id wasDirty)
            cases rest
            exact ⟨later.next_le, later.frame⟩

/-! ## Whole operations -/

/-- The page counter a read or the next write goes by. -/
def readNext (tree : CowBTree) : Nat := if tree.hasPending then tree.pendingNext else tree.nextPageId

theorem readNext_of_pending (pending : self.hasPending = true) :
    self.readNext = self.pendingNext := by
  rw [readNext, if_pos pending]

/-- What one write does to a handle, whatever it does to the tree. -/
structure Wrote (before after : CowBTree) (key : Bytes) (op : Option Bytes) : Prop where
  pageSize : after.pageSize = before.pageSize
  root : after.root = before.root
  nextPageId : after.nextPageId = before.nextPageId
  hasPending : after.hasPending = true
  pendingOps : after.pendingOps = before.pendingOps.insert key op
  next_le : before.readNext ≤ after.readNext

theorem beginTxn_readNext (self : CowBTree) : self.beginTxn.pendingNext = self.readNext := by
  unfold beginTxn readNext
  split <;> rfl

theorem beginTxn_frame (self : CowBTree) :
    self.beginTxn.frame = (self.pageSize, self.root, self.nextPageId, true, self.pendingOps) := by
  unfold beginTxn frame
  split
  · rename_i pending
    rw [pending]
  · rfl

theorem wrote_of_frame {op : Option Bytes} (next : self.beginTxn.pendingNext ≤ after.pendingNext)
    (frame : after.frame =
      (self.pageSize, self.root, self.nextPageId, true, self.pendingOps.insert key op)) :
    Wrote self after key op := by
  simp only [CowBTree.frame, Prod.mk.injEq] at frame
  obtain ⟨size, root, nextPageId, pending, ops⟩ := frame
  refine ⟨size, root, nextPageId, pending, ops, ?_⟩
  rw [readNext_of_pending pending, <- beginTxn_readNext]
  exact next

theorem put_wrote (done : self.put committed key value = .ok after) :
    Wrote self after key (some value) := by
  unfold put at done
  split at done
  · cases done
  · obtain ⟨⟨outcome, inserted⟩, isInserted, result⟩ := bind_eq_ok done
    have advances := insertInto_advances isInserted
    have frame := advances.frame.trans self.beginTxn_frame
    simp only [CowBTree.frame, Prod.mk.injEq] at frame
    cases result
    cases outcome with
    | replaced newId =>
      exact wrote_of_frame advances.next_le (by simp [CowBTree.frame, growRoot, frame])
    | split left right separator =>
      exact wrote_of_frame (advances.next_le.trans (Nat.le_succ _))
        (by simp [CowBTree.frame, growRoot, allocPage, putNode, frame])

theorem delete_wrote (done : self.delete committed key = .ok after) :
    Wrote self after key none := by
  obtain ⟨⟨newRoot, deleted⟩, isDeleted, result⟩ := bind_eq_ok done
  have advances := deleteFrom_advances isDeleted
  have frame := advances.frame.trans self.beginTxn_frame
  simp only [CowBTree.frame, Prod.mk.injEq] at frame
  cases result
  exact wrote_of_frame advances.next_le (by simp [CowBTree.frame, frame])

end CowBTree

end InlaySql.Btree
