import InlaySql.Bm25.Index

/-!
# The stored full-text index

The terms in their order, each with its postings in the order of row ids, and then the documents
with their lengths: the bytes depend on what is indexed and not on the ordinals. Reading hands
out ordinals as terms and documents are first seen, and computes the impacts at the end.
-/

namespace InlaySql.Bm25

open Lib Sql
open Stateful Cursor

/-- `FORMAT_VERSION`. -/
def formatVersion : UInt8 := 1

namespace Bm25Index

/-! ## Writing -/

/-- The postings of a term as rows with frequencies, in the order of row ids. -/
def rowOrdered (self : Bm25Index) (term : Nat) : List (RowId × Nat) :=
  ((self.postingsOf term).map fun posting =>
    ((self.ids[posting.doc]?).getD 0, posting.frequency)).mergeSort fun left right =>
      decide (left.1 ≤ right.1)

/-- A row id and a count: a posting, or a document's length. -/
def encodePair (pair : RowId × Nat) : Bytes := leBytes 8 pair.1 ++ leBytes 4 pair.2

def encodeTerm (entry : String × List (RowId × Nat)) : Bytes :=
  putString entry.1 ++ (putLen entry.2.length ++ entry.2.flatMap encodePair)

/-- Each term with its postings. -/
def contents (self : Bm25Index) : List (String × List (RowId × Nat)) :=
  self.terms.toList.map fun (term, ordinal) => (term, self.rowOrdered ordinal)

/-- Each document with its length. -/
def measures (self : Bm25Index) : List (RowId × Nat) :=
  self.ordinals.toList.map fun (id, ordinal) => (id, self.lengthOf ordinal)

def encode (self : Bm25Index) : Bytes :=
  formatVersion :: (putLen self.terms.size ++ (self.contents.flatMap encodeTerm ++
    (putLen self.live ++ self.measures.flatMap encodePair)))

/-! ## Reading -/

/-- `array8` of a row id and `array4` of a count. -/
def decodePair : Reader Error (RowId × Nat) := do
  let id := ofLe (<- take .corrupt 8)
  let count := ofLe (<- take .corrupt 4)
  return (id, count)

/-- A posting is put at the end of a term's list. -/
def pushPosting (self : Bm25Index) (term : Nat) (posting : Posting) : Bm25Index :=
  { self with
    postings := self.postings.modify term (· ++ [posting])
    docTerms := self.docTerms.modify posting.doc (· ++ [term]) }

/-- One posting read: its document gets an ordinal when it is first seen. -/
def loadPosting (term : Nat) (self : Bm25Index) (pair : RowId × Nat) : Bm25Index :=
  let (placed, doc) := self.ordinalFor pair.1
  placed.pushPosting term ⟨doc, pair.2⟩

/-- The postings of a term, sorted by document ordinal. -/
def sortPostings (self : Bm25Index) (term : Nat) : Bm25Index :=
  { self with postings := self.postings.modify term fun postings =>
      postings.mergeSort fun left right => decide (left.doc ≤ right.doc) }

def decodeTerm (self : Bm25Index) : Reader Error Bm25Index := do
  let term <- string
  let postingCount <- count .corrupt 12
  let (named, ordinal) := self.termFor term
  let loaded <- fold (fun index => do return loadPosting ordinal index (<- decodePair))
    postingCount named
  return loaded.sortPostings ordinal

/-- One document read, with its length. -/
def loadDoc (self : Bm25Index) (pair : RowId × Nat) : Bm25Index :=
  let (placed, ordinal) := self.ordinalFor pair.1
  { placed with
    lengths := placed.lengths.set ordinal pair.2
    live := placed.live + 1
    totalLength := placed.totalLength + pair.2 }

/-- The impacts, computed exactly. -/
def widenAll (self : Bm25Index) : Bm25Index :=
  let widened (postings : List Posting) (impact : Impact) : Impact :=
    postings.foldl (fun impact posting =>
      impact.widen posting.frequency (self.lengthOf posting.doc)) impact
  { self with impacts := List.zipWith widened self.postings self.impacts }

def decode : Reader Error Bm25Index := do
  let version <- u8 .corrupt
  if version ≠ formatVersion then
    refuse s!"BM25 index format version {version} is not {formatVersion}"
  else
    let termCount <- count .corrupt 8
    let loaded <- fold decodeTerm termCount new
    let docCount <- count .corrupt 12
    let measured <- fold (fun index => do return loadDoc index (<- decodePair)) docCount loaded
    return measured.widenAll

/-- `decode` of a whole byte string. -/
def load (bytes : Bytes) : Except (Fault Error) Bm25Index := (decode (Cursor.new bytes)).1

end Bm25Index

end InlaySql.Bm25
