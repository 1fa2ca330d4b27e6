import InlaySql.Lib.Slots
import InlaySql.Sql.Storage

/-!
# Rows stored by key

What a scan of a `WITHOUT ROWID` table yields: each row that can be fetched, once, in the
order of the keys. Storing a row puts it in the place of its key, and deleting a key
leaves the other rows.
-/

namespace InlaySql.Sql.Storage

open Lib

variable {storage : Storage} {table : String} {key other : Bytes} {row : Row}

/-- Entries in the order of their keys. -/
def keyBefore (left right : Bytes × Row) : Bool := decide (left.1 < right.1)

theorem keyedRowOf_eq_some {binding : StoreKey × StoreValue} {stored : Bytes × Row} :
    keyedRowOf table binding = some stored ↔
      binding = (.keyed (lower table) stored.1, .row stored.2) := by
  obtain ⟨key, value⟩ := binding
  obtain ⟨bytes, row⟩ := stored
  cases key <;> cases value <;> simp [keyedRowOf]
  constructor
  · rintro ⟨rfl, rfl, rfl⟩
    exact ⟨⟨rfl, rfl⟩, rfl⟩
  · rintro ⟨⟨rfl, rfl⟩, rfl⟩
    exact ⟨rfl, rfl, rfl⟩

theorem mem_keyedRows {stored : Bytes × Row} :
    stored ∈ storage.keyedRows table ↔ storage.getRowKeyed table stored.1 = some stored.2 := by
  simp only [keyedRows, List.mem_filterMap, keyedRowOf_eq_some, exists_eq_right,
    Std.ExtTreeMap.mem_toList_iff_getElem?_eq_some]
  rw [getRowKeyed, Store.get, Option.bind_eq_some_iff]
  constructor
  · intro found
    exact ⟨_, found, rfl⟩
  · rintro ⟨value, found, isRow⟩
    cases value with
    | row values => rw [found, Option.some.inj isRow]
    | entry | catalog | counter | changes | bytes => cases isRow

theorem lt_of_compare {left right : Bytes} (less : compare left right = .lt) : left < right := by
  rw [List.compare_eq_compareLex] at less
  induction left generalizing right with
  | nil =>
    cases right with
    | nil => cases less
    | cons byte right => exact List.nil_lt_cons byte right
  | cons byte left ih =>
    cases right with
    | nil => cases less
    | cons other right =>
      rw [List.compareLex_cons_cons, Ordering.then_eq_lt] at less
      rcases less with less | ⟨same, less⟩
      · exact List.cons_lt_cons_iff.mpr (.inl (compare_lt_iff_lt.mp less))
      · exact List.cons_lt_cons_iff.mpr (.inr ⟨compare_eq_iff_eq.mp same, ih less⟩)

theorem pairwise_keyedRows : (storage.keyedRows table).Pairwise (keyBefore · ·) := by
  refine List.Pairwise.filterMap _ ?_ (storage.side table).working.ordered_keys_toList
  intro left right less stored isStored other isOther
  rw [keyedRowOf_eq_some.mp isStored, keyedRowOf_eq_some.mp isOther] at less
  have compared : compare stored.1 other.1 = .lt := by
    simpa [StoreKey.cmp, compareLex, compareOn, StoreKey.space, StoreKey.label, StoreKey.number,
      StoreKey.bytes, Ordering.then_eq_lt] using less
  exact decide_eq_true (lt_of_compare compared)

theorem isTemp_onSide (change : Store → Store) : (storage.onSide table change).isTemp = storage.isTemp := by
  unfold onSide
  split <;> rfl

theorem side_onSide (change : Store -> Store) :
    (storage.onSide table change).side table = change (storage.side table) := by
  unfold side
  rw [isTemp_onSide]
  unfold onSide
  split <;> rfl

theorem getRowKeyed_putRowKeyed : (storage.putRowKeyed table key row).getRowKeyed table other =
    if key = other then some row else storage.getRowKeyed table other := by
  rw [getRowKeyed, getRowKeyed, putRowKeyed, side_onSide, Store.get, Store.get, Store.put,
    Std.ExtTreeMap.getElem?_insert]
  simp only [Std.LawfulEqCmp.compare_eq_iff_eq, StoreKey.keyed.injEq, true_and]
  split <;> rfl

theorem getRowKeyed_deleteRowKeyed : (storage.deleteRowKeyed table key).getRowKeyed table other =
    if key = other then none else storage.getRowKeyed table other := by
  rw [getRowKeyed, getRowKeyed, deleteRowKeyed, side_onSide, Store.get, Store.get, Store.delete,
    Std.ExtTreeMap.getElem?_erase]
  simp only [Std.LawfulEqCmp.compare_eq_iff_eq, StoreKey.keyed.injEq, true_and]
  split <;> rfl

theorem keyBefore_asymm (left right : Bytes × Row) (isBefore : keyBefore left right = true) :
    keyBefore right left = false := by
  simpa [keyBefore] using (of_decide_eq_true isBefore).le

theorem keyBefore_trans (left middle right : Bytes × Row) (first : keyBefore left middle = true)
    (second : keyBefore middle right = true) : keyBefore left right = true := by
  simpa [keyBefore] using (of_decide_eq_true first).trans (of_decide_eq_true second)

theorem keyBefore_or {left right : Bytes × Row} :
    keyBefore left right = true ∨ keyBefore right left = true ↔ left.1 ≠ right.1 := by
  simp [keyBefore, lt_or_lt_iff_ne]

theorem keyedRows_putRowKeyed : (storage.putRowKeyed table key row).keyedRows table =
    Slots.place keyBefore (key, row) (storage.keyedRows table) := by
  refine Slots.eq_of_mem_iff keyBefore_asymm pairwise_keyedRows
    (Slots.pairwise_place keyBefore_trans pairwise_keyedRows) fun stored => ?_
  obtain ⟨bytes, values⟩ := stored
  rw [Slots.mem_place, keyBefore_or, mem_keyedRows, mem_keyedRows, getRowKeyed_putRowKeyed,
    Prod.mk.injEq]
  by_cases same : key = bytes
  · simp [same, eq_comm]
  · simp [same, Ne.symm same]

theorem keyedRows_deleteRowKeyed : (storage.deleteRowKeyed table key).keyedRows table =
    (storage.keyedRows table).filter (·.1 != key) := by
  refine Slots.eq_of_mem_iff keyBefore_asymm pairwise_keyedRows (pairwise_keyedRows.filter _)
    fun stored => ?_
  rw [List.mem_filter, mem_keyedRows, mem_keyedRows, getRowKeyed_deleteRowKeyed]
  by_cases same : key = stored.1
  · simp [same]
  · simp [same, Ne.symm same]

end InlaySql.Sql.Storage
