import InlaySql.Bm25.Loading

/-!
# What an index is written as

The postings of a term as rows, in the order of row ids, are the documents that mention it with
how often they do. So what is written is a function of the documents held, and reading it back
gives an index that holds them.
-/

namespace InlaySql.Bm25.Bm25Index

open List Option Lib Sql Function

variable {index : Bm25Index} {docs : RowId -> Option Doc} {term : String} {slot : Nat}

section

variable (stores : index.Stores docs) (isSlot : index.terms[term]? = some slot)

include stores isSlot

theorem Stores.row_of_posting {posting : Posting} (member : posting ∈ index.postingsOf slot) :
    ∃ id doc, index.ids[posting.doc]? = some id ∧ index.ordinals[id]? = some posting.doc ∧
      docs id = some doc ∧ 0 < doc.count term ∧ posting.frequency = doc.count term := by
  obtain ⟨doc, ⟨id, isOrdinal, isDoc⟩, occurs, isFrequency⟩ :=
    (stores.postings term slot isSlot posting).mp member
  exact ⟨id, doc, stores.ids id posting.doc isOrdinal, isOrdinal, isDoc, occurs, isFrequency⟩

theorem Stores.mem_rowOrdered (id : RowId) (frequency : Nat) :
    (id, frequency) ∈ index.rowOrdered slot ↔
      ∃ doc, docs id = some doc ∧ 0 < doc.count term ∧ frequency = doc.count term := by
  rw [rowOrdered, mem_mergeSort, List.mem_map]
  constructor
  · rintro ⟨posting, member, isPair⟩
    obtain ⟨row, doc, isRow, -, isDoc, occurs, isFrequency⟩ := stores.row_of_posting isSlot member
    rw [isRow] at isPair
    obtain ⟨rfl, rfl⟩ := Prod.mk.inj isPair
    exact ⟨doc, isDoc, occurs, isFrequency⟩
  · rintro ⟨doc, isDoc, occurs, rfl⟩
    have isPresent := stores.present id
    rw [isDoc, isSome_some, isSome_iff_exists] at isPresent
    obtain ⟨ordinal, isOrdinal⟩ := isPresent
    refine ⟨⟨ordinal, doc.count term⟩, (stores.postings term slot isSlot _).mpr
      ⟨doc, ⟨id, isOrdinal, isDoc⟩, occurs, rfl⟩, ?_⟩
    rw [stores.ids id ordinal isOrdinal]
    rfl

theorem Stores.sorted_rowOrdered : (index.rowOrdered slot).Pairwise (·.1 < ·.1) := by
  have distinct : (((index.postingsOf slot).map fun posting =>
      ((index.ids[posting.doc]?).getD 0, posting.frequency)).map Prod.fst).Nodup := by
    rw [List.map_map]
    refine List.Nodup.map_on ?_ ((stores.sorted term slot isSlot).imp fun isBefore same => ?_)
    · intro one isOne other isOther same
      obtain ⟨row, doc, isRow, isOrdinal, isDoc, -, isCount⟩ := stores.row_of_posting isSlot isOne
      obtain ⟨row', doc', isRow', isOrdinal', isDoc', -, isCount'⟩ :=
        stores.row_of_posting isSlot isOther
      simp only [comp_apply, isRow, isRow', getD_some] at same
      subst same
      obtain rfl := Option.some.inj (isDoc.symm.trans isDoc')
      have isPlace := Option.some.inj (isOrdinal.symm.trans isOrdinal')
      cases one
      cases other
      simp_all
    · rw [same] at isBefore
      exact Nat.lt_irrefl _ isBefore
  exact Slots.pairwise_mergeSort distinct

end

theorem length_rowOrdered : (index.rowOrdered slot).length = (index.postingsOf slot).length := by
  rw [rowOrdered, length_mergeSort, length_map]

theorem Holds.describes (holds : index.Holds docs) :
    Describes index.contents index.measures docs := by
  obtain ⟨stores, -, tight⟩ := holds
  have isEntry {entry : String × List (RowId × Nat)} (member : entry ∈ index.contents) :
      ∃ slot, index.terms[entry.1]? = some slot ∧ entry.2 = index.rowOrdered slot := by
    obtain ⟨⟨term, slot⟩, isPair, rfl⟩ := List.mem_map.mp member
    exact ⟨slot, Std.ExtTreeMap.mem_toList_iff_getElem?_eq_some.mp isPair, rfl⟩
  refine ⟨?_, fun entry member => ?_, fun entry member => ?_, fun entry member => ?_,
    fun id doc term isDoc occurs => ?_, ?_, fun id length => ?_⟩
  · rw [contents, List.map_map]
    exact (Std.ExtTreeMap.map_fst_toList_eq_keys (t := index.terms)) ▸ Std.ExtTreeMap.nodup_keys
  · obtain ⟨slot, isSlot, rows⟩ := isEntry member
    rw [rows]
    exact pairwise_map.mpr ((stores.sorted_rowOrdered isSlot).imp Nat.ne_of_lt)
  · obtain ⟨slot, isSlot, rows⟩ := isEntry member
    rw [rows, <- length_pos_iff_ne_nil, length_rowOrdered]
    exact length_pos_iff_ne_nil.mpr (tight _ slot isSlot)
  · obtain ⟨slot, isSlot, rows⟩ := isEntry member
    rw [rows]
    exact stores.mem_rowOrdered isSlot
  · obtain ⟨slot, isSlot⟩ := isSome_iff_exists.mp (stores.named id doc term isDoc occurs)
    exact List.mem_map.mpr ⟨_, List.mem_map.mpr ⟨(term, slot),
      Std.ExtTreeMap.mem_toList_iff_getElem?_eq_some.mpr isSlot, rfl⟩, rfl⟩
  · rw [measures, List.map_map]
    exact (Std.ExtTreeMap.map_fst_toList_eq_keys (t := index.ordinals)) ▸ Std.ExtTreeMap.nodup_keys
  · rw [measures, List.mem_map]
    constructor
    · rintro ⟨⟨row, ordinal⟩, isPair, same⟩
      have isOrdinal := Std.ExtTreeMap.mem_toList_iff_getElem?_eq_some.mp isPair
      obtain ⟨rfl, rfl⟩ := Prod.mk.inj same
      have isPresent := stores.present row
      rw [isOrdinal, isSome_some, eq_comm, isSome_iff_exists] at isPresent
      obtain ⟨doc, isDoc⟩ := isPresent
      exact ⟨doc, isDoc, stores.lengths ordinal doc ⟨row, isOrdinal, isDoc⟩⟩
    · rintro ⟨doc, isDoc, rfl⟩
      have isPresent := stores.present id
      rw [isDoc, isSome_some, isSome_iff_exists] at isPresent
      obtain ⟨ordinal, isOrdinal⟩ := isPresent
      exact ⟨(id, ordinal), Std.ExtTreeMap.mem_toList_iff_getElem?_eq_some.mpr isOrdinal,
        congrArg (Prod.mk id) (stores.lengths ordinal doc ⟨id, isOrdinal, isDoc⟩)⟩

end InlaySql.Bm25.Bm25Index
