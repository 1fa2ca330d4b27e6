import InlaySql.Bm25.Stores
import InlaySql.Bm25.Postings

/-!
# Documents are entered and taken out

A document gets an ordinal with nothing under it, and is then entered under its terms one by
one; it is taken from under them one by one before its ordinal is given back.
-/

namespace InlaySql.Bm25

open List Lib Sql Function

namespace Doc

/-- How often the document mentions a term is set. -/
def recount (doc : Doc) (term : String) (frequency : Nat) : Doc :=
  ⟨doc.length, update doc.count term frequency⟩

@[simp] theorem recount_self {doc : Doc} {term : String} {frequency : Nat} :
    (doc.recount term frequency).count term = frequency :=
  update_self ..

theorem recount_of_ne {doc : Doc} {term other : String} {frequency : Nat} (differs : other ≠ term) :
    (doc.recount term frequency).count other = doc.count other :=
  update_of_ne differs ..

end Doc

namespace Bm25Index

variable {index next : Bm25Index} {docs : RowId -> Option Doc} {id : RowId} {ordinal : Nat}

theorem places_update (docs : RowId -> Option Doc)
    (leases : Leased (fun id : RowId => next.ordinals[id]?) next.freeDocs
      next.ids.length) (isOrdinal : next.ordinals[id]? = some ordinal)
    (others : ∀ other : RowId, other ≠ id -> next.ordinals[other]? = index.ordinals[other]?)
    (before : ∀ old, index.ordinals[id]? = some old -> old = ordinal) (doc : Doc) (place : Nat)
    (other : Doc) : next.Places (update docs id (some doc)) place other ↔
      place = ordinal ∧ other = doc ∨ place ≠ ordinal ∧ index.Places docs place other := by
  constructor
  · rintro ⟨row, isPlace, isDoc⟩
    by_cases same : row = id
    · subst same
      rw [update_self] at isDoc
      exact .inl ⟨Option.some.inj (isPlace.symm.trans isOrdinal), (Option.some.inj isDoc).symm⟩
    · rw [update_of_ne same] at isDoc
      refine .inr ⟨?_, row, (others row same) ▸ isPlace, isDoc⟩
      rintro rfl
      exact same (leases.unique row id place isPlace isOrdinal)
  · rintro (⟨rfl, rfl⟩ | ⟨differs, row, isPlace, isDoc⟩)
    · exact ⟨id, isOrdinal, update_self ..⟩
    · have notRow : row ≠ id := by
        rintro rfl
        exact differs (before place isPlace)
      exact ⟨row, (others row notRow).trans isPlace, by rw [update_of_ne notRow, isDoc]⟩

/-- The fields an index keeps when documents come and go. -/
def SameTerms (before after : Bm25Index) : Prop :=
  after.terms = before.terms ∧ after.postings = before.postings ∧
    after.impacts = before.impacts ∧ after.freeTerms = before.freeTerms

/-! ## A document gets an ordinal -/

theorem Stores.enroll (stores : index.Stores docs) (absent : docs id = none)
    (same : SameTerms index next) (ordinals : next.ordinals = index.ordinals.insert id ordinal)
    (leases : Leased (update (fun id : RowId => index.ordinals[id]?) id (some ordinal))
      next.freeDocs next.ids.length)
    (lengthsLength : next.lengths.length = next.ids.length)
    (docTermsLength : next.docTerms.length = next.ids.length)
    (isId : next.ids[ordinal]? = some id)
    (ids : ∀ other ≠ ordinal, ∀ row, index.ids[other]? = some row -> next.ids[other]? = some row)
    (fresh : next.lengthOf ordinal = 0)
    (lengths : ∀ other ≠ ordinal, next.lengthOf other = index.lengthOf other)
    (free : ∀ other ∈ next.freeDocs, other ∈ index.freeDocs) :
    next.Stores (update docs id (some ⟨0, fun _ => 0⟩)) := by
  have unplaced : index.ordinals[id]? = none := by
    rw [<- Option.not_isSome_iff_eq_none, stores.present id, absent]
    exact Bool.false_ne_true
  have isOrdinal : next.ordinals[id]? = some ordinal := by simp [ordinals]
  have others (other : RowId) (differs : other ≠ id) :
      next.ordinals[other]? = index.ordinals[other]? := by
    rw [ordinals, Std.ExtTreeMap.getElem?_insert, if_neg]
    simpa using Ne.symm differs
  have leasesNext : Leased (fun id : RowId => next.ordinals[id]?) next.freeDocs
      next.ids.length := by
    rw [ordinals, getElem?_insert]
    exact leases
  have places := places_update docs leasesNext isOrdinal others
    (fun old held => by rw [unplaced] at held; cases held) ⟨0, fun _ => 0⟩
  obtain ⟨terms, postings, impacts, freeTerms⟩ := same
  refine ⟨leasesNext, ?_, ?_, lengthsLength, docTermsLength, ?_, ?_, ?_, ?_, ?_, ?_, ?_, ?_, ?_⟩
  · rw [terms, freeTerms, postings]
    exact stores.termLeases
  · rw [impacts, postings]
    exact stores.impactsLength
  · intro other
    by_cases isId : other = id
    · rw [isId, isOrdinal, update_self]
      rfl
    · rw [others other isId, update_of_ne isId]
      exact stores.present other
  · intro other doc term isDoc occurs
    rw [terms]
    by_cases isId : other = id
    · rw [isId, update_self] at isDoc
      cases isDoc
      cases occurs
    · rw [update_of_ne isId] at isDoc
      exact stores.named other doc term isDoc occurs
  · intro other place isPlace
    by_cases isId' : other = id
    · rw [isId', isOrdinal] at isPlace
      cases isPlace
      rw [isId', isId]
    · have differs : place ≠ ordinal := by
        rintro rfl
        exact isId' (leasesNext.unique other id place isPlace isOrdinal)
      exact ids place differs other (stores.ids other place (others other isId' ▸ isPlace))
  · intro place doc isPlaced
    rcases (places place doc).mp isPlaced with ⟨rfl, rfl⟩ | ⟨differs, before⟩
    · exact fresh
    · rw [lengths place differs]
      exact stores.lengths place doc before
  · intro term slot isSlot
    rw [postingsOf, postings]
    exact stores.sorted term slot (terms ▸ isSlot)
  · intro term slot isSlot posting
    rw [postingsOf, postings]
    refine (stores.postings term slot (terms ▸ isSlot) posting).trans ?_
    constructor
    · rintro ⟨doc, isPlaced, occurs, isFrequency⟩
      refine ⟨doc, (places _ _).mpr (.inr ⟨?_, isPlaced⟩), occurs, isFrequency⟩
      rintro isOrdinal'
      obtain ⟨row, isPlace, isDoc⟩ := isPlaced
      have notId : row ≠ id := by
        rintro rfl
        rw [absent] at isDoc
        cases isDoc
      have atNext : next.ordinals[row]? = some ordinal := by
        rw [others row notId, isPlace, isOrdinal']
      exact notId (leasesNext.unique row id ordinal atNext isOrdinal)
    · rintro ⟨doc, isPlaced, occurs, isFrequency⟩
      rcases (places _ _).mp isPlaced with ⟨-, rfl⟩ | ⟨-, before⟩
      · cases occurs
      · exact ⟨doc, before, occurs, isFrequency⟩
  · intro term slot isSlot other doc isDoc occurs
    rw [impactOf, impacts]
    by_cases isId : other = id
    · rw [isId, update_self] at isDoc
      cases isDoc
      cases occurs
    · rw [update_of_ne isId] at isDoc
      exact stores.impacts term slot (terms ▸ isSlot) other doc isDoc occurs
  · intro slot member
    rw [postingsOf, postings]
    exact stores.freeTerms slot (freeTerms ▸ member)
  · intro place member
    have differs : place ≠ ordinal := by
      rintro rfl
      exact leasesNext.apart id place isOrdinal member
    rw [lengths place differs]
    exact stores.freeDocs place (free place member)

theorem Lists.enroll (lists : index.Lists docs) (terms : next.terms = index.terms)
    (places : ∀ place other, next.Places (update docs id (some ⟨0, fun _ => 0⟩)) place other ->
      place = ordinal ∧ other = ⟨0, fun _ => 0⟩ ∨ place ≠ ordinal ∧ index.Places docs place other)
    (fresh : next.termsOf ordinal = [])
    (others : ∀ other ≠ ordinal, next.termsOf other = index.termsOf other)
    (free : ∀ other ∈ next.freeDocs, other ∈ index.freeDocs) :
    next.Lists (update docs id (some ⟨0, fun _ => 0⟩)) where
  nodup := by
    intro place
    by_cases same : place = ordinal
    · rw [same, fresh]
      exact nodup_nil
    · rw [others place same]
      exact lists.nodup place
  mem := by
    intro place doc isPlaced slot
    rw [terms]
    rcases places place doc isPlaced with ⟨rfl, rfl⟩ | ⟨differs, before⟩
    · simp [fresh]
    · rw [others place differs]
      exact lists.mem place doc before slot
  freeDocs := by
    intro place member
    by_cases same : place = ordinal
    · rw [same, fresh]
    · rw [others place same]
      exact lists.freeDocs place (free place member)

theorem Stores.ordinalFor (stores : index.Stores docs) (lists : index.Lists docs)
    (absent : docs id = none) (room : index.freeDocs = [] -> index.ids.length < 2 ^ 32) :
    ∃ next ordinal, index.ordinalFor id = (next, ordinal) ∧
      next.Stores (update docs id (some ⟨0, fun _ => 0⟩)) ∧
      next.Lists (update docs id (some ⟨0, fun _ => 0⟩)) ∧ SameTerms index next ∧
      next.ordinals[id]? = some ordinal ∧ next.live = index.live ∧
      next.totalLength = index.totalLength ∧ (next.ids.length = index.ids.length ∨
        index.freeDocs = [] ∧ next.ids.length = index.ids.length + 1) := by
  have unplaced : index.ordinals[id]? = none := by
    rw [<- Option.not_isSome_iff_eq_none, stores.present id, absent]
    exact Bool.false_ne_true
  have others (place : Nat) (other : RowId) (differs : other ≠ id) :
      (index.ordinals.insert id place)[other]? = index.ordinals[other]? := by
    rw [Std.ExtTreeMap.getElem?_insert, if_neg]
    simpa using Ne.symm differs
  have none_before (place old : Nat) (held : index.ordinals[id]? = some old) : old = place := by
    rw [unplaced] at held
    cases held
  cases isFree : index.freeDocs with
  | cons reused free =>
    have leases := stores.docLeases
    rw [isFree] at leases
    have inside := leases.free_lt reused mem_cons_self
    have reusing := leases.reuse unplaced
    have taken : index.ordinalFor id = ({ index with
        ids := index.ids.set reused id
        lengths := index.lengths.set reused 0
        docTerms := index.docTerms.set reused []
        freeDocs := free
        ordinals := index.ordinals.insert id reused }, reused) := by
      rw [Bm25Index.ordinalFor, unplaced, isFree]
    refine ⟨_, reused, taken, ?_, ?_, ⟨rfl, rfl, rfl, rfl⟩, by simp, rfl, rfl, .inl (by simp)⟩
    · refine stores.enroll absent ⟨rfl, rfl, rfl, rfl⟩ rfl ?_ ?_ ?_ ?_ ?_ ?_ ?_ ?_
      · simpa using reusing
      · simpa using stores.lengthsLength
      · simpa using stores.docTermsLength
      · simp [inside]
      · intro other differs row isRow
        simpa [getElem?_set_ne (Ne.symm differs)] using isRow
      · simp [lengthOf, stores.lengthsLength, inside]
      · intro other differs
        simp only [lengthOf]
        rw [getElem?_set_ne (Ne.symm differs)]
      · intro other member
        rw [isFree]
        exact mem_cons_of_mem _ member
    · refine lists.enroll rfl (fun place other => (places_update docs ?_ Std.ExtTreeMap.getElem?_insert_self
        (others reused) (none_before reused) _ place other).mp) ?_ ?_ ?_
      · simpa [getElem?_insert] using reusing
      · simp [termsOf, stores.docTermsLength, inside]
      · intro other differs
        simp only [termsOf]
        rw [getElem?_set_ne (Ne.symm differs)]
      · intro other member
        rw [isFree]
        exact mem_cons_of_mem _ member
  | nil =>
    have isOrdinal : asU32 index.ids.length = index.ids.length := Nat.mod_eq_of_lt (room isFree)
    have growing := stores.docLeases.grow unplaced
    have taken : index.ordinalFor id = ({ index with
        ids := index.ids ++ [id]
        lengths := index.lengths ++ [0]
        docTerms := index.docTerms ++ [[]]
        ordinals := index.ordinals.insert id index.ids.length }, index.ids.length) := by
      rw [Bm25Index.ordinalFor, unplaced, isFree, isOrdinal]
    refine ⟨_, index.ids.length, taken, ?_, ?_, ⟨rfl, rfl, rfl, rfl⟩, by simp, rfl, rfl,
      .inr ⟨rfl, by simp⟩⟩
    · refine stores.enroll absent ⟨rfl, rfl, rfl, rfl⟩ rfl ?_ ?_ ?_ ?_ ?_ ?_ ?_ ?_
      · simpa using growing
      · simp [stores.lengthsLength]
      · simp [stores.docTermsLength]
      · simp
      · intro other _ row isRow
        have inside := (List.getElem?_eq_some_iff.mp isRow).1
        rw [getElem?_append_left inside, isRow]
      · simp only [lengthOf]
        rw [<- stores.lengthsLength]
        simp
      · exact fun other _ => getD_append_default index.lengths 0 other
      · exact fun other member => member
    · refine lists.enroll rfl (fun place other => (places_update docs ?_ Std.ExtTreeMap.getElem?_insert_self
        (others index.ids.length) (none_before _) _ place other).mp) ?_ ?_ ?_
      · simpa [getElem?_insert] using growing
      · simp only [termsOf]
        rw [<- stores.docTermsLength]
        simp
      · exact fun other _ => getD_append_default index.docTerms [] other
      · exact fun other member => member

/-! ## What stands under an ordinal is revised -/

/-- The fields an index keeps when a document it holds is revised. -/
def SamePlaces (before after : Bm25Index) : Prop :=
  after.ids = before.ids ∧ after.ordinals = before.ordinals ∧ after.freeDocs = before.freeDocs

theorem Stores.places_revised (stores : index.Stores docs)
    (isOrdinal : index.ordinals[id]? = some ordinal) (same : SamePlaces index next) (doc : Doc)
    (place : Nat) (other : Doc) : next.Places (update docs id (some doc)) place other ↔
      place = ordinal ∧ other = doc ∨ place ≠ ordinal ∧ index.Places docs place other := by
  obtain ⟨ids, ordinals, freeDocs⟩ := same
  refine places_update docs ?_ (by rw [ordinals, isOrdinal]) (fun other _ => by rw [ordinals])
    (fun old held => Option.some.inj (held.symm.trans isOrdinal)) doc place other
  rw [ids, ordinals, freeDocs]
  exact stores.docLeases

theorem Stores.revise {old doc : Doc} (stores : index.Stores docs) (isDoc : docs id = some old)
    (isOrdinal : index.ordinals[id]? = some ordinal) (same : SamePlaces index next)
    (termLeases : Leased (fun term : String => next.terms[term]?) next.freeTerms
      next.postings.length)
    (impactsLength : next.impacts.length = next.postings.length)
    (lengthsLength : next.lengths.length = next.ids.length)
    (docTermsLength : next.docTerms.length = next.ids.length)
    (kept : ∀ (term : String) (slot : Nat), next.terms[term]? = some slot ->
      index.terms[term]? = some slot)
    (named : ∀ term, 0 < doc.count term -> (next.terms[term]?).isSome)
    (othersNamed : ∀ other ≠ id, ∀ otherDoc term, docs other = some otherDoc ->
      0 < otherDoc.count term -> (next.terms[term]?).isSome)
    (length : next.lengthOf ordinal = doc.length)
    (lengths : ∀ other ≠ ordinal, next.lengthOf other = index.lengthOf other)
    (sorted : ∀ (term : String) (slot : Nat), next.terms[term]? = some slot ->
      (next.postingsOf slot).Pairwise (·.doc < ·.doc))
    (postings : ∀ (term : String) (slot : Nat), next.terms[term]? = some slot -> ∀ posting,
      posting ∈ next.postingsOf slot ↔
        posting.doc = ordinal ∧ 0 < doc.count term ∧ posting.frequency = doc.count term ∨
          posting.doc ≠ ordinal ∧ posting ∈ index.postingsOf slot)
    (bounds : ∀ (term : String) (slot : Nat), next.terms[term]? = some slot ->
      (index.impactOf slot).maxFrequency ≤ (next.impactOf slot).maxFrequency ∧
        (next.impactOf slot).minLength ≤ (index.impactOf slot).minLength)
    (bounded : ∀ (term : String) (slot : Nat), next.terms[term]? = some slot ->
      0 < doc.count term -> doc.count term ≤ (next.impactOf slot).maxFrequency ∧
        (next.impactOf slot).minLength ≤ doc.length)
    (freeTerms : ∀ slot ∈ next.freeTerms, next.postingsOf slot = []) :
    next.Stores (update docs id (some doc)) := by
  have places := stores.places_revised isOrdinal same doc
  obtain ⟨ids, ordinals, freeDocs⟩ := same
  refine ⟨?_, termLeases, impactsLength, lengthsLength, docTermsLength, ?_, ?_, ?_, ?_, sorted,
    ?_, ?_, freeTerms, ?_⟩
  · rw [ordinals, freeDocs, ids]
    exact stores.docLeases
  · intro other
    rw [ordinals, stores.present other]
    by_cases isId : other = id
    · rw [isId, update_self, isDoc]
      rfl
    · rw [update_of_ne isId]
  · intro other otherDoc term isOther occurs
    by_cases isId : other = id
    · rw [isId, update_self] at isOther
      cases isOther
      exact named term occurs
    · rw [update_of_ne isId] at isOther
      exact othersNamed other isId otherDoc term isOther occurs
  · intro other place isPlace
    rw [ids]
    exact stores.ids other place (ordinals ▸ isPlace)
  · intro place otherDoc isPlaced
    rcases (places place otherDoc).mp isPlaced with ⟨rfl, rfl⟩ | ⟨differs, before⟩
    · exact length
    · rw [lengths place differs]
      exact stores.lengths place otherDoc before
  · intro term slot isSlot posting
    refine (postings term slot isSlot posting).trans ?_
    constructor
    · rintro (⟨isPlace, occurs, isFrequency⟩ | ⟨differs, member⟩)
      · exact ⟨doc, (places _ _).mpr (.inl ⟨isPlace, rfl⟩), occurs, isFrequency⟩
      · obtain ⟨other, isPlaced, occurs, isFrequency⟩ :=
          (stores.postings term slot (kept term slot isSlot) posting).mp member
        exact ⟨other, (places _ _).mpr (.inr ⟨differs, isPlaced⟩), occurs, isFrequency⟩
    · rintro ⟨other, isPlaced, occurs, isFrequency⟩
      rcases (places _ _).mp isPlaced with ⟨isPlace, rfl⟩ | ⟨differs, before⟩
      · exact .inl ⟨isPlace, occurs, isFrequency⟩
      · exact .inr ⟨differs, (stores.postings term slot (kept term slot isSlot) posting).mpr
          ⟨other, before, occurs, isFrequency⟩⟩
  · intro term slot isSlot other otherDoc isOther occurs
    by_cases isId : other = id
    · rw [isId, update_self] at isOther
      cases isOther
      exact bounded term slot isSlot occurs
    · rw [update_of_ne isId] at isOther
      obtain ⟨frequent, long⟩ :=
        stores.impacts term slot (kept term slot isSlot) other otherDoc isOther occurs
      obtain ⟨rises, falls⟩ := bounds term slot isSlot
      exact ⟨frequent.trans rises, falls.trans long⟩
  · intro place member
    have differs : place ≠ ordinal := by
      rintro rfl
      exact stores.docLeases.apart id place isOrdinal (freeDocs ▸ member)
    rw [lengths place differs]
    exact stores.freeDocs place (freeDocs ▸ member)

theorem Stores.setLength (stores : index.Stores docs)
    (isDoc : docs id = some ⟨0, fun _ => 0⟩) (isOrdinal : index.ordinals[id]? = some ordinal)
    (length live total : Nat) :
    Stores { index with
      lengths := index.lengths.set ordinal length
      live := live
      totalLength := total } (update docs id (some ⟨length, fun _ => 0⟩)) := by
  have inside := stores.docLeases.lt id ordinal isOrdinal
  refine stores.revise isDoc isOrdinal ⟨rfl, rfl, rfl⟩ stores.termLeases stores.impactsLength ?_
    stores.docTermsLength (fun _ _ held => held) (fun _ occurs => absurd occurs (Nat.lt_irrefl 0))
    (fun other _ => stores.named other) ?_ ?_ stores.sorted ?_
    (fun _ _ _ => ⟨Nat.le_refl _, Nat.le_refl _⟩)
    (fun _ _ _ occurs => absurd occurs (Nat.lt_irrefl 0)) stores.freeTerms
  · simpa using stores.lengthsLength
  · simp [lengthOf, stores.lengthsLength, inside]
  · intro other differs
    simp only [lengthOf]
    rw [getElem?_set_ne (Ne.symm differs)]
  · intro term slot isSlot posting
    constructor
    · intro member
      refine .inr ⟨fun isPlace => ?_, member⟩
      obtain ⟨doc, isPlaced, occurs, -⟩ := (stores.postings term slot isSlot posting).mp member
      obtain rfl := stores.places_unique (isPlace ▸ isPlaced) ⟨id, isOrdinal, isDoc⟩
      exact Nat.lt_irrefl 0 occurs
    · rintro (⟨-, occurs, -⟩ | ⟨-, member⟩)
      · exact absurd occurs (Nat.lt_irrefl 0)
      · exact member

theorem getD_modify {α : Type} (items : List α) (place other : Nat) (change : α -> α) (fallback : α)
    (inside : place < items.length) :
    ((items.modify place change)[other]?).getD fallback =
      if other = place then change ((items[place]?).getD fallback)
      else (items[other]?).getD fallback := by
  by_cases same : other = place
  · subst same
    simp [getElem?_eq_getElem inside]
  · simp [same, Ne.symm same]

theorem getD_set {α : Type} (items : List α) (place other : Nat) (value fallback : α)
    (inside : place < items.length) :
    ((items.set place value)[other]?).getD fallback =
      if other = place then value else (items[other]?).getD fallback := by
  rw [getElem?_set]
  by_cases same : other = place
  · subst same
    simp [inside]
  · rw [if_neg same, if_neg (Ne.symm same)]

section Revised

variable {doc : Doc} {term : String} {slot frequency : Nat}

section

variable (stores : index.Stores docs) (isDoc : docs id = some doc)
    (isOrdinal : index.ordinals[id]? = some ordinal)

include stores isDoc isOrdinal

theorem Stores.postings_kept {other : String} {found : Nat}
    (isFound : index.terms[other]? = some found) (posting : Posting) :
    posting ∈ index.postingsOf found ↔
      posting.doc = ordinal ∧ 0 < doc.count other ∧ posting.frequency = doc.count other ∨
        posting.doc ≠ ordinal ∧ posting ∈ index.postingsOf found := by
  rw [stores.postings other found isFound posting]
  have own (isPlace : posting.doc = ordinal) (placed : Doc) :
      index.Places docs posting.doc placed ↔ placed = doc := by
    rw [isPlace]
    refine ⟨fun isPlaced => stores.places_unique isPlaced ⟨id, isOrdinal, isDoc⟩, ?_⟩
    rintro rfl
    exact ⟨id, isOrdinal, isDoc⟩
  by_cases isPlace : posting.doc = ordinal
  · simp only [own isPlace]
    simp [isPlace]
  · simp [isPlace]

theorem Stores.enterTerm (isSlot : index.terms[term]? = some slot) (occurs : 0 < frequency) :
    (Bm25Index.enterTerm ordinal doc.length index (slot, frequency)).Stores
      (update docs id (some (doc.recount term frequency))) := by
  have inside := stores.termLeases.lt term slot isSlot
  have own (other : String) (held : index.terms[other]? = some slot) : other = term :=
    stores.termLeases.unique other term slot held isSlot
  have entered (other : Nat) :
      (Bm25Index.enterTerm ordinal doc.length index (slot, frequency)).postingsOf other =
        if other = slot then putPosting ⟨ordinal, frequency⟩ (index.postingsOf slot)
        else index.postingsOf other :=
    getD_modify index.postings slot other _ [] inside
  have widened (other : Nat) :
      (Bm25Index.enterTerm ordinal doc.length index (slot, frequency)).impactOf other =
        if other = slot then (index.impactOf slot).widen frequency doc.length
        else index.impactOf other :=
    getD_modify index.impacts slot other _ .default (stores.impactsLength ▸ inside)
  refine stores.revise isDoc isOrdinal ⟨rfl, rfl, rfl⟩ ?_ ?_ stores.lengthsLength ?_
    (fun _ _ held => held) ?_ (fun other _ => stores.named other)
    (stores.lengths ordinal doc ⟨id, isOrdinal, isDoc⟩) (fun _ _ => rfl) ?_ ?_ ?_ ?_ ?_
  · simpa [Bm25Index.enterTerm] using stores.termLeases
  · simpa [Bm25Index.enterTerm] using stores.impactsLength
  · simpa [Bm25Index.enterTerm] using stores.docTermsLength
  · intro other mentions
    by_cases same : other = term
    · change (index.terms[other]?).isSome
      rw [same, isSlot]
      rfl
    · rw [Doc.recount_of_ne same] at mentions
      exact stores.named id doc other isDoc mentions
  · intro other found isFound
    rw [entered]
    split
    · rename_i same
      exact sorted_putPosting (stores.sorted other slot (same ▸ isFound))
    · exact stores.sorted other found isFound
  · intro other found isFound posting
    rw [entered]
    by_cases same : found = slot
    · subst same
      obtain rfl := own other isFound
      rw [if_pos rfl, mem_putPosting (stores.sorted other found isFound), Doc.recount_self]
      constructor
      · rintro (rfl | ⟨member, differs⟩)
        · exact .inl ⟨rfl, occurs, rfl⟩
        · exact .inr ⟨differs, member⟩
      · rintro (⟨isPlace, -, isFrequency⟩ | ⟨differs, member⟩)
        · cases posting
          subst isPlace isFrequency
          exact .inl rfl
        · exact .inr ⟨member, differs⟩
    · have differs : other ≠ term := by
        rintro rfl
        exact same (Option.some.inj (isFound.symm.trans isSlot))
      rw [if_neg same, Doc.recount_of_ne differs]
      exact stores.postings_kept isDoc isOrdinal isFound posting
  · intro other found isFound
    rw [widened]
    split
    · rename_i same
      rw [same]
      exact ⟨Nat.le_max_left _ _, Nat.min_le_left _ _⟩
    · exact ⟨Nat.le_refl _, Nat.le_refl _⟩
  · intro other found isFound mentions
    rw [widened]
    by_cases same : found = slot
    · obtain rfl := own other (same ▸ isFound)
      rw [if_pos same, Doc.recount_self]
      exact ⟨Nat.le_max_right _ _, Nat.min_le_right _ _⟩
    · have differs : other ≠ term := by
        rintro rfl
        exact same (Option.some.inj (isFound.symm.trans isSlot))
      rw [Doc.recount_of_ne differs] at mentions ⊢
      rw [if_neg same]
      exact stores.impacts other found isFound id doc isDoc mentions
  · intro other member
    have differs : other ≠ slot := by
      rintro rfl
      exact stores.termLeases.apart term other isSlot member
    rw [entered, if_neg differs]
    exact stores.freeTerms other member

end

theorem Lists.enterTerm (lists : index.Lists docs) (stores : index.Stores docs)
    (isDoc : docs id = some doc) (isOrdinal : index.ordinals[id]? = some ordinal)
    (isSlot : index.terms[term]? = some slot) (unentered : doc.count term = 0)
    (occurs : 0 < frequency) :
    (Bm25Index.enterTerm ordinal doc.length index (slot, frequency)).Lists
      (update docs id (some (doc.recount term frequency))) := by
  have inside := stores.docTermsLength ▸ stores.docLeases.lt id ordinal isOrdinal
  have own (other : String) (held : index.terms[other]? = some slot) : other = term :=
    stores.termLeases.unique other term slot held isSlot
  have same : SamePlaces index (Bm25Index.enterTerm ordinal doc.length index (slot, frequency)) :=
    ⟨rfl, rfl, rfl⟩
  have places := stores.places_revised isOrdinal same (doc.recount term frequency)
  have isPlaced : index.Places docs ordinal doc := ⟨id, isOrdinal, isDoc⟩
  have absent : slot ∉ index.termsOf ordinal := by
    rw [lists.mem ordinal doc isPlaced]
    rintro ⟨other, held, mentions⟩
    rw [own other held, unentered] at mentions
    exact Nat.lt_irrefl 0 mentions
  have listed (other : Nat) :
      (Bm25Index.enterTerm ordinal doc.length index (slot, frequency)).termsOf other =
        if other = ordinal then index.termsOf ordinal ++ [slot] else index.termsOf other :=
    getD_modify index.docTerms ordinal other _ [] inside
  refine ⟨fun place => ?_, fun place other isPlacedNext found => ?_, fun place member => ?_⟩
  · rw [listed]
    split
    · rw [nodup_append]
      refine ⟨lists.nodup ordinal, nodup_singleton slot, ?_⟩
      rintro other member found isFound rfl
      exact absent (mem_singleton.mp isFound ▸ member)
    · exact lists.nodup place
  · rw [listed]
    rcases (places place other).mp isPlacedNext with ⟨rfl, rfl⟩ | ⟨differs, before⟩
    · rw [if_pos rfl, mem_append, mem_singleton, lists.mem place doc isPlaced]
      constructor
      · rintro (⟨other, held, mentions⟩ | rfl)
        · refine ⟨other, held, ?_⟩
          rw [Doc.recount_of_ne]
          · exact mentions
          · rintro rfl
            rw [unentered] at mentions
            exact Nat.lt_irrefl 0 mentions
        · exact ⟨term, isSlot, by rwa [Doc.recount_self]⟩
      · rintro ⟨other, held, mentions⟩
        by_cases same : other = term
        · rw [same] at held
          exact .inr (Option.some.inj (held.symm.trans isSlot))
        · rw [Doc.recount_of_ne same] at mentions
          exact .inl ⟨other, held, mentions⟩
    · rw [if_neg differs]
      exact lists.mem place other before found
  · have differs : place ≠ ordinal := by
      rintro rfl
      exact stores.docLeases.apart id place isOrdinal member
    rw [listed, if_neg differs]
    exact lists.freeDocs place member

end Revised

end Bm25Index

end InlaySql.Bm25
