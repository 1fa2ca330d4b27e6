import Mathlib

/-!
# Buffered writes over committed entries

An ordered map whose writes are buffered: a read prefers the buffered write to the
committed entry, `commit` folds the buffer into the committed entries and `rollback`
drops it.
-/

namespace InlaySql.Lib

/-- Committed entries, and the buffered write of each key that has one. The buffered
write `none` is a delete. -/
structure Buffered (κ ν : Type) (cmp : κ -> κ -> Ordering) [Std.TransCmp cmp] where
  committed : Std.ExtTreeMap κ ν cmp
  pending : Std.ExtTreeMap κ (Option ν) cmp

namespace Buffered

variable {κ ν : Type} {cmp : κ -> κ -> Ordering} [Std.TransCmp cmp]

/-- Nothing stored and nothing buffered. -/
def empty : Buffered κ ν cmp := ⟨∅, ∅⟩

/-- What a reader sees. -/
def get (self : Buffered κ ν cmp) (key : κ) : Option ν :=
  match self.pending[key]? with
  | some write => write
  | none => self.committed[key]?

/-- Buffer the write of one key. -/
def write (self : Buffered κ ν cmp) (key : κ) (value : Option ν) : Buffered κ ν cmp :=
  { self with pending := self.pending.insert key value }

/-- One write folded into the committed entries. -/
def settle (committed : Std.ExtTreeMap κ ν cmp) (key : κ) : Option ν -> Std.ExtTreeMap κ ν cmp
  | some value => committed.insert key value
  | none => committed.erase key

/-- Fold the buffer into the committed entries. -/
def commit (self : Buffered κ ν cmp) : Buffered κ ν cmp :=
  ⟨self.pending.foldl settle self.committed, ∅⟩

/-- Drop the buffer. -/
def rollback (self : Buffered κ ν cmp) : Buffered κ ν cmp := ⟨self.committed, ∅⟩

variable {self : Buffered κ ν cmp} {key other : κ} {value : Option ν}

theorem getElem?_settle (committed : Std.ExtTreeMap κ ν cmp) :
    (settle committed key value)[other]? =
      if cmp key other = .eq then value else committed[other]? := by
  cases value with
  | some value => rw [settle, Std.ExtTreeMap.getElem?_insert]
  | none => rw [settle, Std.ExtTreeMap.getElem?_erase]

@[simp] theorem pending_commit : self.commit.pending = ∅ := rfl

@[simp] theorem committed_write : (self.write key value).committed = self.committed := rfl

@[simp] theorem pending_rollback : self.rollback.pending = ∅ := rfl

theorem get_of_settled (settled : self.pending = ∅) (key : κ) :
    self.get key = self.committed[key]? := by
  simp [get, settled]

theorem rollback_eq {before : Buffered κ ν cmp} (settled : before.pending = ∅)
    (kept : self.committed = before.committed) : self.rollback = before := by
  cases before
  cases settled
  cases kept
  rfl

theorem getElem?_foldl_settle {writes : List (κ × Option ν)}
    (distinct : writes.Pairwise fun left right => ¬ cmp left.1 right.1 = .eq)
    (committed : Std.ExtTreeMap κ ν cmp) (key : κ) :
    (∀ write ∈ writes, cmp write.1 key = .eq ->
      (writes.foldl (fun held write => settle held write.1 write.2) committed)[key]? = write.2) ∧
    ((∀ write ∈ writes, ¬ cmp write.1 key = .eq) ->
      (writes.foldl (fun held write => settle held write.1 write.2) committed)[key]? =
        committed[key]?) := by
  induction writes generalizing committed with
  | nil => simp
  | cons first writes ih =>
    obtain ⟨apart, distinctRest⟩ := List.pairwise_cons.mp distinct
    obtain ⟨held, absent⟩ := ih distinctRest (settle committed first.1 first.2)
    constructor
    · intro write member same
      rcases List.mem_cons.mp member with rfl | later
      · have notLater : ∀ other ∈ writes, ¬ cmp other.1 key = .eq := by
          intro other later isKey
          exact apart other later (Std.TransCmp.eq_trans same (Std.OrientedCmp.eq_symm isKey))
        rw [List.foldl_cons, absent notLater, getElem?_settle, if_pos same]
      · exact held write later same
    · intro none
      rw [List.foldl_cons, absent fun write later => none write (List.mem_cons_of_mem _ later),
        getElem?_settle, if_neg (none first List.mem_cons_self)]

theorem get_commit [Std.LawfulEqCmp cmp] (key : κ) : self.commit.get key = self.get key := by
  have fold : self.commit.get key =
      (self.pending.toList.foldl (fun held write => settle held write.1 write.2)
        self.committed)[key]? := by
    rw [get_of_settled rfl, commit, Std.ExtTreeMap.foldl_eq_foldl_toList]
  obtain ⟨held, absent⟩ :=
    getElem?_foldl_settle self.pending.distinct_keys_toList self.committed key
  rw [fold]
  cases found : self.pending[key]? with
  | some write =>
    have member := Std.ExtTreeMap.mem_toList_iff_getElem?_eq_some.mpr found
    rw [held _ member Std.ReflCmp.compare_self, get, found]
  | none =>
    rw [absent, get, found]
    intro write member same
    have isKey : write.1 = key := Std.LawfulEqCmp.eq_of_compare same
    have here := Std.ExtTreeMap.mem_toList_iff_getElem?_eq_some.mp
      (show (write.1, write.2) ∈ self.pending.toList from member)
    rw [isKey, found] at here
    cases here

end Buffered

end InlaySql.Lib
