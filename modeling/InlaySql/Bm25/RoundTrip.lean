import InlaySql.Bm25.Codec
import InlaySql.Sql.CatalogRoundTrip

/-!
# What the stored index is read back as

Reading the bytes of an index hands out the ordinals anew: it is one fold over the terms with
their postings and one over the documents with their lengths, whatever ordinals were written.
-/

namespace InlaySql.Bm25.Bm25Index

open Lib Sql
open Stateful Cursor Reader

/-- One term read with its postings. -/
def loadTerm (self : Bm25Index) (entry : String × List (RowId × Nat)) : Bm25Index :=
  let (named, ordinal) := self.termFor entry.1
  (entry.2.foldl (loadPosting ordinal) named).sortPostings ordinal

/-- The index that terms with their postings and documents with their lengths are read as. -/
def loaded (contents : List (String × List (RowId × Nat))) (measures : List (RowId × Nat)) :
    Bm25Index :=
  (measures.foldl loadDoc (contents.foldl loadTerm new)).widenAll

/-- A pair that the format has room for. -/
def FitsPair (pair : RowId × Nat) : Prop := pair.1 < 2 ^ 64 ∧ pair.2 < 2 ^ 32

/-- An index that the format has room for. -/
structure Storable (index : Bm25Index) : Prop where
  terms : index.terms.size < 2 ^ 32
  contents : ∀ entry ∈ index.contents, Short entry.1 ∧ entry.2.length < 2 ^ 32 ∧
    ∀ pair ∈ entry.2, FitsPair pair
  live : index.live = index.ordinals.size
  docs : index.ordinals.size < 2 ^ 32
  measures : ∀ pair ∈ index.measures, FitsPair pair

theorem reads_decodePair {pair : RowId × Nat} (fits : FitsPair pair) :
    Reads decodePair (encodePair pair) pair := by
  have eight : (leBytes 8 pair.1).length = 8 := length_leBytes 8 pair.1
  have four : (leBytes 4 pair.2).length = 4 := length_leBytes 4 pair.2
  have first := Reads.take Error.corrupt (leBytes 8 pair.1)
  have second := (Reads.take Error.corrupt (leBytes 4 pair.2)).map (f := fun bytes => (pair.1, ofLe bytes))
  rw [eight] at first
  rw [four, ofLe_leBytes (by simpa using fits.2)] at second
  refine first.bind ?_
  rw [ofLe_leBytes (by simpa using fits.1)]
  exact second

theorem length_encodePair (pair : RowId × Nat) : (encodePair pair).length = 12 := by
  simp [encodePair]

theorem reads_fold (step : Bm25Index -> RowId × Nat -> Bm25Index) (pairs : List (RowId × Nat))
    (fits : ∀ pair ∈ pairs, FitsPair pair) (start : Bm25Index) :
    Reads (Cursor.fold (fun index => do return step index (<- decodePair)) pairs.length start)
      (pairs.flatMap encodePair) (pairs.foldl step start) := by
  refine Reads.fold _ encodePair pairs (fun done => done.foldl step start) fun before pair after split => ?_
  rw [List.foldl_append]
  exact (reads_decodePair (fits pair (by simp [split]))).map

theorem twelve_le (pairs : List (RowId × Nat)) :
    pairs.length * max 12 1 ≤ (pairs.flatMap encodePair).length :=
  Reads.length_flatMap pairs encodePair fun pair _ => (length_encodePair pair).ge

theorem reads_decodeTerm {entry : String × List (RowId × Nat)} (short : Short entry.1)
    (few : entry.2.length < 2 ^ 32) (fits : ∀ pair ∈ entry.2, FitsPair pair) (index : Bm25Index) :
    Reads (decodeTerm index) (encodeTerm entry) (index.loadTerm entry) := by
  refine (reads_string short).bind (.count few (twelve_le entry.2) ?_)
  exact (reads_fold _ entry.2 fits _).map

theorem eight_le_encodeTerm (entry : String × List (RowId × Nat)) :
    8 ≤ (encodeTerm entry).length := by
  have four := four_le_putString entry.1
  simp only [encodeTerm, putLen, List.length_append, length_leBytes]
  omega

theorem load_encode {index : Bm25Index} (storable : index.Storable) :
    load index.encode = .ok (loaded index.contents index.measures) := by
  have size : index.contents.length = index.terms.size := by simp [contents]
  have count : index.measures.length = index.ordinals.size := by simp [measures]
  have terms : Reads (Cursor.fold decodeTerm index.contents.length new)
      (index.contents.flatMap encodeTerm) (index.contents.foldl loadTerm new) := by
    refine Reads.fold _ encodeTerm index.contents (fun done => done.foldl loadTerm new)
      fun before entry after split => ?_
    obtain ⟨short, few, fits⟩ := storable.contents entry (by simp [split])
    rw [List.foldl_append]
    exact reads_decodeTerm short few fits _
  have docs := reads_fold loadDoc index.measures storable.measures
    (index.contents.foldl loadTerm new)
  have wide : index.contents.length * max 8 1 ≤ (index.contents.flatMap encodeTerm).length :=
    Reads.length_flatMap index.contents encodeTerm fun entry _ => eight_le_encodeTerm entry
  have reads : Reads decode index.encode (loaded index.contents index.measures) := by
    refine (Reads.u8 Error.corrupt formatVersion).bind (.passes (by simp) ?_)
    rw [<- size, storable.live, <- count]
    refine .count (by rw [size]; exact storable.terms) ?_ (terms.bind ?_)
    · rw [List.length_append]
      exact wide.trans (Nat.le_add_right _ _)
    · exact .count (by rw [count]; exact storable.docs) (twelve_le index.measures) docs.map
  obtain ⟨later, ran⟩ := reads [] [] []
  rw [List.nil_append, List.append_nil] at ran
  rw [load, Cursor.new]
  simpa using congrArg Prod.fst ran

end InlaySql.Bm25.Bm25Index
