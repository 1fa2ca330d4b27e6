import InlaySql.Sql.CatalogCodec

/-!
# The full-text index

A term has an ordinal and under it a list of postings, by document ordinal; a document has an
ordinal and under it its row, its length and the terms it contains. Both kinds of ordinals are
`u32`s and are handed out again once nothing stands under them. Beside its postings a term keeps
its largest frequency and its smallest document, which only ever widen. Which characters are
alphanumeric is Unicode and stays a parameter.
-/

namespace InlaySql.Bm25

open Lib Sql

/-- `as u32`. -/
def asU32 (value : Nat) : Nat := value % 2 ^ 32

/-- `tokenize`: the maximal runs of alphanumeric characters, in ASCII lower case. -/
def tokenize (isAlphanumeric : Char -> Bool) (text : String) : List String :=
  ((text.toList.splitOnP (!isAlphanumeric ·)).filter (· ≠ [])).map fun token =>
    String.ofList (token.map Char.toLower)

/-- One document's entry in a term's postings. -/
structure Posting where
  doc : Nat
  frequency : Nat
  deriving DecidableEq, Repr

/-- The extremes of one term's postings. -/
structure Impact where
  maxFrequency : Nat
  minLength : Nat
  deriving DecidableEq, Repr

namespace Impact

/-- `u32::MAX`. -/
def maxU32 : Nat := 2 ^ 32 - 1

def default : Impact := ⟨0, maxU32⟩

def widen (self : Impact) (frequency length : Nat) : Impact :=
  ⟨max self.maxFrequency frequency, min self.minLength length⟩

end Impact

structure Bm25Index where
  terms : Std.ExtTreeMap String Nat
  postings : List (List Posting)
  impacts : List Impact
  /-- The ordinals of terms nothing mentions, the last freed first. -/
  freeTerms : List Nat
  ids : List RowId
  ordinals : Std.ExtTreeMap RowId Nat
  lengths : List Nat
  docTerms : List (List Nat)
  /-- The ordinals of removed documents, the last freed first. -/
  freeDocs : List Nat
  live : Nat
  totalLength : Nat

namespace Bm25Index

def new : Bm25Index := ⟨∅, [], [], [], [], ∅, [], [], [], 0, 0⟩

/-- `self.postings[term]`, of a term there is. -/
def postingsOf (self : Bm25Index) (term : Nat) : List Posting := (self.postings[term]?).getD []

def impactOf (self : Bm25Index) (term : Nat) : Impact := (self.impacts[term]?).getD .default

/-- `self.lengths[doc]`, of a document there is. -/
def lengthOf (self : Bm25Index) (doc : Nat) : Nat := (self.lengths[doc]?).getD 0

def termsOf (self : Bm25Index) (doc : Nat) : List Nat := (self.docTerms[doc]?).getD []

def ordinalFor (self : Bm25Index) (id : RowId) : Bm25Index × Nat :=
  match self.ordinals[id]? with
  | some ordinal => (self, ordinal)
  | none =>
    match self.freeDocs with
    | reused :: free =>
      ({ self with
          ids := self.ids.set reused id
          lengths := self.lengths.set reused 0
          docTerms := self.docTerms.set reused []
          freeDocs := free
          ordinals := self.ordinals.insert id reused }, reused)
    | [] =>
      let ordinal := asU32 self.ids.length
      ({ self with
          ids := self.ids ++ [id]
          lengths := self.lengths ++ [0]
          docTerms := self.docTerms ++ [[]]
          ordinals := self.ordinals.insert id ordinal }, ordinal)

def termFor (self : Bm25Index) (term : String) : Bm25Index × Nat :=
  match self.terms[term]? with
  | some ordinal => (self, ordinal)
  | none =>
    match self.freeTerms with
    | reused :: free =>
      ({ self with
          postings := self.postings.set reused []
          impacts := self.impacts.set reused .default
          freeTerms := free
          terms := self.terms.insert term reused }, reused)
    | [] =>
      let ordinal := asU32 self.postings.length
      ({ self with
          postings := self.postings ++ [[]]
          impacts := self.impacts ++ [.default]
          terms := self.terms.insert term ordinal }, ordinal)

/-! ## Removing -/

/-- A posting is taken out, where the binary search finds it. -/
def removePosting (doc : Nat) (postings : List Posting) : List Posting :=
  match postings.dropWhile (·.doc < doc) with
  | found :: after =>
    if found.doc = doc then postings.takeWhile (·.doc < doc) ++ after else postings
  | [] => postings

/-- A removed document leaves one of its terms, and a term nothing mentions leaves the index. -/
def dropTerm (doc : Nat) (self : Bm25Index) (term : Nat) : Bm25Index :=
  let left := removePosting doc (self.postingsOf term)
  let self' := { self with postings := self.postings.set term left }
  if left = [] then
    { self' with
      terms := self.terms.filter fun _ ordinal => ordinal ≠ term
      freeTerms := term :: self.freeTerms }
  else self'

def remove (self : Bm25Index) (id : RowId) : Bm25Index :=
  match self.ordinals[id]? with
  | none => self
  | some doc =>
    let taken := { self with
      ordinals := self.ordinals.erase id
      docTerms := self.docTerms.set doc [] }
    let dropped := (self.termsOf doc).foldl (dropTerm doc) taken
    { dropped with
      live := dropped.live - 1
      totalLength := dropped.totalLength - dropped.lengthOf doc
      lengths := dropped.lengths.set doc 0
      freeDocs := doc :: dropped.freeDocs }

/-! ## Inserting -/

/-- One token of a text is counted under its term. -/
def countToken (state : Bm25Index × Std.ExtTreeMap Nat Nat) (token : String) :
    Bm25Index × Std.ExtTreeMap Nat Nat :=
  let (self, term) := state.1.termFor token
  (self, state.2.insert term (asU32 ((state.2[term]?).getD 0 + 1)))

/-- A posting is put where the binary search says, in place of one of the same document. -/
def putPosting (posting : Posting) (postings : List Posting) : List Posting :=
  match postings.dropWhile (·.doc < posting.doc) with
  | found :: after =>
    if found.doc = posting.doc then
      postings.takeWhile (·.doc < posting.doc) ++ posting :: after
    else postings.takeWhile (·.doc < posting.doc) ++ posting :: found :: after
  | [] => postings ++ [posting]

/-- A document of a length is entered under one of its terms. -/
def enterTerm (doc length : Nat) (self : Bm25Index) (entry : Nat × Nat) : Bm25Index :=
  let (term, frequency) := entry
  { self with
    impacts := self.impacts.modify term (·.widen frequency length)
    postings := self.postings.modify term (putPosting ⟨doc, frequency⟩)
    docTerms := self.docTerms.modify doc (· ++ [term]) }

def insert (isAlphanumeric : Char -> Bool) (self : Bm25Index) (id : RowId) (text : String) :
    Bm25Index :=
  let removed := self.remove id
  let tokens := tokenize isAlphanumeric text
  let (named, frequencies) := tokens.foldl countToken (removed, ∅)
  let (placed, doc) := named.ordinalFor id
  let counted := { placed with
    lengths := placed.lengths.set doc (asU32 tokens.length)
    live := placed.live + 1
    totalLength := placed.totalLength + tokens.length }
  frequencies.toList.foldl (enterTerm doc (asU32 tokens.length)) counted

end Bm25Index

end InlaySql.Bm25
