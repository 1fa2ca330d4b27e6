import InlaySql.Bm25.Entries

/-!
# A removal

A document is taken from under its terms one by one, a term nothing mentions any more leaves the
index, and then the document's ordinal is given back. What is dropped on the way never belongs to
another document.
-/

namespace InlaySql.Bm25.Bm25Index

open List Option Lib Sql Function

variable {index : Bm25Index} {docs : RowId -> Option Doc} {id : RowId} {ordinal slot : Nat}
  {doc : Doc} {term : String}

/-- Each registered term is mentioned. -/
def Tight (index : Bm25Index) : Prop :=
  ∀ (term : String) (slot : Nat), index.terms[term]? = some slot -> index.postingsOf slot ≠ []

theorem Stores.mentioned_iff (stores : index.Stores docs) (isSlot : index.terms[term]? = some slot) :
    index.postingsOf slot ≠ [] ↔ ∃ id doc, docs id = some doc ∧ 0 < doc.count term := by
  constructor
  · intro nonempty
    obtain ⟨posting, member⟩ := exists_mem_of_ne_nil _ nonempty
    obtain ⟨doc, ⟨id, -, isDoc⟩, occurs, -⟩ := (stores.postings term slot isSlot posting).mp member
    exact ⟨id, doc, isDoc, occurs⟩
  · rintro ⟨id, doc, isDoc, occurs⟩ isEmpty
    have isPresent := stores.present id
    rw [isDoc, isSome_some, isSome_iff_exists] at isPresent
    obtain ⟨ordinal, isOrdinal⟩ := isPresent
    have member := (stores.postings term slot isSlot ⟨ordinal, doc.count term⟩).mpr
      ⟨doc, ⟨id, isOrdinal, isDoc⟩, occurs, rfl⟩
    rw [isEmpty] at member
    cases member

/-! ## A document is taken from under a term -/

/-- The postings of the term without the document's. -/
def withdraw (index : Bm25Index) (ordinal slot : Nat) : Bm25Index :=
  { index with postings := index.postings.set slot (removePosting ordinal (index.postingsOf slot)) }

/-- The term leaves the index. -/
def unregister (index : Bm25Index) (slot : Nat) : Bm25Index :=
  { index with
    terms := index.terms.filter fun _ ordinal => ordinal ≠ slot
    freeTerms := slot :: index.freeTerms }

theorem dropTerm_eq : dropTerm ordinal index slot =
    if removePosting ordinal (index.postingsOf slot) = [] then
      (index.withdraw ordinal slot).unregister slot
    else index.withdraw ordinal slot :=
  rfl

section

variable (stores : index.Stores docs)

include stores

theorem Stores.postingsOf_withdraw (isSlot : index.terms[term]? = some slot) (ordinal other : Nat) :
    (index.withdraw ordinal slot).postingsOf other =
      if other = slot then removePosting ordinal (index.postingsOf slot)
      else index.postingsOf other :=
  getD_set index.postings slot other _ [] (stores.termLeases.lt term slot isSlot)

theorem Stores.withdraw (isDoc : docs id = some doc)
    (isOrdinal : index.ordinals[id]? = some ordinal) (isSlot : index.terms[term]? = some slot) :
    (index.withdraw ordinal slot).Stores (update docs id (some (doc.recount term 0))) := by
  have own (other : String) (held : index.terms[other]? = some slot) : other = term :=
    stores.termLeases.unique other term slot held isSlot
  have withdrawn := stores.postingsOf_withdraw isSlot ordinal
  have unmentioned (other : String) (mentions : 0 < (doc.recount term 0).count other) :
      other ≠ term ∧ 0 < doc.count other := by
    by_cases same : other = term
    · rw [same, Doc.recount_self] at mentions
      exact absurd mentions (Nat.lt_irrefl 0)
    · rw [Doc.recount_of_ne same] at mentions
      exact ⟨same, mentions⟩
  refine stores.revise isDoc isOrdinal ⟨rfl, rfl, rfl⟩ ?_ ?_ stores.lengthsLength
    stores.docTermsLength (fun _ _ held => held) ?_ (fun other _ => stores.named other)
    (stores.lengths ordinal doc ⟨id, isOrdinal, isDoc⟩) (fun _ _ => rfl) ?_ ?_
    (fun _ _ _ => ⟨Nat.le_refl _, Nat.le_refl _⟩) ?_ ?_
  · simpa [Bm25Index.withdraw] using stores.termLeases
  · simpa [Bm25Index.withdraw] using stores.impactsLength
  · exact fun other mentions => stores.named id doc other isDoc (unmentioned other mentions).2
  · intro other found isFound
    rw [withdrawn]
    split
    · exact sorted_removePosting (stores.sorted term slot isSlot)
    · exact stores.sorted other found isFound
  · intro other found isFound posting
    rw [withdrawn]
    by_cases same : found = slot
    · subst same
      obtain rfl := own other isFound
      rw [if_pos rfl, mem_removePosting (stores.sorted other found isFound), Doc.recount_self]
      simp [and_comm]
    · have differs : other ≠ term := by
        rintro rfl
        exact same (Option.some.inj (isFound.symm.trans isSlot))
      rw [if_neg same, Doc.recount_of_ne differs]
      exact stores.postings_kept isDoc isOrdinal isFound posting
  · intro other found isFound mentions
    obtain ⟨differs, mentioned⟩ := unmentioned other mentions
    rw [Doc.recount_of_ne differs]
    exact stores.impacts other found isFound id doc isDoc mentioned
  · intro other member
    have differs : other ≠ slot := by
      rintro rfl
      exact stores.termLeases.apart term other isSlot member
    rw [withdrawn, if_neg differs]
    exact stores.freeTerms other member

section

variable (isSlot : index.terms[term]? = some slot)

include isSlot

theorem Stores.terms_unregister : (fun other : String => (index.unregister slot).terms[other]?) =
      update (fun other : String => index.terms[other]?) term none := by
  funext other
  simp only [Bm25Index.unregister, Std.ExtTreeMap.getElem?_filter']
  by_cases same : other = term
  · rw [same, update_self, isSlot]
    simp
  · rw [update_of_ne same]
    cases isFound : index.terms[other]? with
    | none => rfl
    | some found =>
      have differs : found ≠ slot := by
        rintro rfl
        exact same (stores.termLeases.unique other term found isFound isSlot)
      simp [differs]

theorem Stores.unregister (isEmpty : index.postingsOf slot = []) :
    (index.unregister slot).Stores docs := by
  have terms := stores.terms_unregister isSlot
  have kept (other : String) (found : Nat) (held : (index.unregister slot).terms[other]? = some found) :
      index.terms[other]? = some found := by
    have held' := (congrFun terms other).symm.trans held
    by_cases same : other = term
    · rw [same, update_self] at held'
      cases held'
    · rwa [update_of_ne same] at held'
  have mentions (id : RowId) (doc : Doc) (isDoc : docs id = some doc) : ¬0 < doc.count term :=
    fun occurs => (stores.mentioned_iff isSlot).mpr ⟨id, doc, isDoc, occurs⟩ isEmpty
  exact {
    docLeases := stores.docLeases
    termLeases := by
      rw [terms]
      exact stores.termLeases.release isSlot
    impactsLength := stores.impactsLength
    lengthsLength := stores.lengthsLength
    docTermsLength := stores.docTermsLength
    present := stores.present
    named := by
      intro id doc other isDoc occurs
      have isNamed := stores.named id doc other isDoc occurs
      have differs : other ≠ term := by
        rintro rfl
        exact mentions id doc isDoc occurs
      rw [congrFun terms other, update_of_ne differs]
      exact isNamed
    ids := stores.ids
    lengths := stores.lengths
    sorted := fun other found held => stores.sorted other found (kept other found held)
    postings := fun other found held => stores.postings other found (kept other found held)
    impacts := fun other found held => stores.impacts other found (kept other found held)
    freeTerms := by
      intro other member
      rcases mem_cons.mp member with rfl | before
      · exact isEmpty
      · exact stores.freeTerms other before
    freeDocs := stores.freeDocs }

end

theorem Stores.dropTerm (isDoc : docs id = some doc)
    (isOrdinal : index.ordinals[id]? = some ordinal) (isSlot : index.terms[term]? = some slot) :
    (Bm25Index.dropTerm ordinal index slot).Stores
      (update docs id (some (doc.recount term 0))) := by
  have withdrawn := stores.withdraw isDoc isOrdinal isSlot
  rw [dropTerm_eq]
  split
  · rename_i isEmpty
    have isSlot' : (index.withdraw ordinal slot).terms[term]? = some slot := isSlot
    refine withdrawn.unregister isSlot' ?_
    rw [stores.postingsOf_withdraw isSlot, if_pos rfl, isEmpty]
  · exact withdrawn

end

theorem Tight.dropTerm (tight : index.Tight) (stores : index.Stores docs)
    (isSlot : index.terms[term]? = some slot) : (Bm25Index.dropTerm ordinal index slot).Tight := by
  intro other found held
  rw [dropTerm_eq] at held ⊢
  split at held
  · rename_i isEmpty
    rw [if_pos isEmpty]
    have unregistered := stores.terms_unregister isSlot
    have held' : update (fun other : String => index.terms[other]?) term none other = some found :=
      (congrFun unregistered other).symm.trans held
    have differs : other ≠ term := by
      rintro rfl
      rw [update_self] at held'
      cases held'
    rw [update_of_ne differs] at held'
    have notSlot : found ≠ slot := by
      rintro rfl
      exact differs (stores.termLeases.unique other term found held' isSlot)
    change (index.withdraw ordinal slot).postingsOf found ≠ []
    rw [stores.postingsOf_withdraw isSlot, if_neg notSlot]
    exact tight other found held'
  · rename_i nonempty
    rw [if_neg nonempty, stores.postingsOf_withdraw isSlot]
    split
    · exact nonempty
    · exact tight other found held

theorem Stores.terms_dropTerm (stores : index.Stores docs)
    (isSlot : index.terms[term]? = some slot) {other : String} (differs : other ≠ term) :
    (Bm25Index.dropTerm ordinal index slot).terms[other]? = index.terms[other]? := by
  rw [dropTerm_eq]
  split
  · rw [<- update_of_ne differs none (fun other : String => index.terms[other]?)]
    exact congrFun (stores.terms_unregister isSlot) other
  · rfl

theorem Stores.terms_mentioned (stores : index.Stores (update docs id (some doc)))
    (absent : docs id = none) (isOrdinal : index.ordinals[id]? = some ordinal)
    (isSlot : index.terms[term]? = some slot) {row : RowId} {otherDoc : Doc} {other : String}
    (isOther : docs row = some otherDoc) (mentions : 0 < otherDoc.count other) :
    (Bm25Index.dropTerm ordinal index slot).terms[other]? = index.terms[other]? := by
  by_cases same : other = term
  · subst same
    rw [dropTerm_eq]
    split
    · rename_i isEmpty
      have notId : row ≠ id := by
        rintro rfl
        rw [absent] at isOther
        cases isOther
      have withdrawn := stores.withdraw (update_self ..) isOrdinal isSlot
      rw [update_idem] at withdrawn
      have isSlot' : (index.withdraw ordinal slot).terms[other]? = some slot := isSlot
      have nonempty := (withdrawn.mentioned_iff isSlot').mpr
        ⟨row, otherDoc, by rw [update_of_ne notId, isOther], mentions⟩
      rw [stores.postingsOf_withdraw isSlot, if_pos rfl, isEmpty] at nonempty
      exact absurd rfl nonempty
    · rfl
  · exact stores.terms_dropTerm isSlot same

/-- The fields an index keeps when terms are dropped. -/
def SameEntries (before after : Bm25Index) : Prop :=
  SamePlaces before after ∧ after.lengths = before.lengths ∧ after.docTerms = before.docTerms ∧
    after.live = before.live ∧ after.totalLength = before.totalLength

theorem sameEntries_dropTerm (index : Bm25Index) (ordinal slot : Nat) :
    SameEntries index (dropTerm ordinal index slot) := by
  rw [dropTerm_eq]
  split
  all_goals exact ⟨⟨rfl, rfl, rfl⟩, rfl, rfl, rfl, rfl⟩

theorem sameEntries_foldl (index : Bm25Index) (ordinal : Nat) (slots : List Nat) :
    SameEntries index (slots.foldl (dropTerm ordinal) index) := by
  induction slots generalizing index with
  | nil => exact ⟨⟨rfl, rfl, rfl⟩, rfl, rfl, rfl, rfl⟩
  | cons slot slots ih =>
    obtain ⟨⟨ids, ordinals, freeDocs⟩, lengths, docTerms, live, total⟩ :=
      sameEntries_dropTerm index ordinal slot
    obtain ⟨⟨ids', ordinals', freeDocs'⟩, lengths', docTerms', live', total'⟩ :=
      ih (dropTerm ordinal index slot)
    exact ⟨⟨ids'.trans ids, ordinals'.trans ordinals, freeDocs'.trans freeDocs⟩,
      lengths'.trans lengths, docTerms'.trans docTerms, live'.trans live, total'.trans total⟩

theorem Lists.dropTerm (lists : index.Lists docs)
    (stores : index.Stores (update docs id (some doc))) (absent : docs id = none)
    (isOrdinal : index.ordinals[id]? = some ordinal) (isSlot : index.terms[term]? = some slot) :
    (Bm25Index.dropTerm ordinal index slot).Lists docs := by
  obtain ⟨⟨-, ordinals, freeDocs⟩, -, docTerms, -, -⟩ :=
    sameEntries_dropTerm index ordinal slot
  refine ⟨fun place => ?_, fun place other isPlaced found => ?_, fun place member => ?_⟩
  · rw [termsOf, docTerms]
    exact lists.nodup place
  · have before : index.Places docs place other := by
      rw [Places, <- ordinals]
      exact isPlaced
    obtain ⟨row, -, isOther⟩ := isPlaced
    rw [termsOf, docTerms]
    refine (lists.mem place other before found).trans ?_
    refine exists_congr fun name => and_congr_left fun mentions => ?_
    rw [stores.terms_mentioned absent isOrdinal isSlot isOther mentions]
  · rw [termsOf, docTerms]
    exact lists.freeDocs place (freeDocs ▸ member)

theorem Stores.foldl_dropTerm (stores : index.Stores (update docs id (some doc)))
    (lists : index.Lists docs) (tight : index.Tight) (absent : docs id = none)
    (isOrdinal : index.ordinals[id]? = some ordinal) (slots : List Nat) (nodup : slots.Nodup)
    (registered : ∀ slot ∈ slots, ∃ term : String, index.terms[term]? = some slot)
    (all : ∀ term, 0 < doc.count term -> ∃ slot ∈ slots, index.terms[term]? = some slot) :
    (slots.foldl (Bm25Index.dropTerm ordinal) index).Stores
        (update docs id (some ⟨doc.length, fun _ => 0⟩)) ∧
      (slots.foldl (Bm25Index.dropTerm ordinal) index).Lists docs ∧
      (slots.foldl (Bm25Index.dropTerm ordinal) index).Tight := by
  induction slots generalizing index doc with
  | nil =>
    have none_left : doc = ⟨doc.length, fun _ => 0⟩ := by
      refine congrArg (Doc.mk doc.length) (funext fun term => ?_)
      by_contra mentioned
      obtain ⟨slot, member, -⟩ := all term (Nat.pos_of_ne_zero mentioned)
      cases member
    rw [none_left] at stores
    exact ⟨stores, lists, tight⟩
  | cons slot slots ih =>
    obtain ⟨fresh, distinct⟩ := nodup_cons.mp nodup
    obtain ⟨term, isSlot⟩ := registered slot mem_cons_self
    have same : SameEntries index (Bm25Index.dropTerm ordinal index slot) :=
      sameEntries_dropTerm index ordinal slot
    have dropped := stores.dropTerm (update_self ..) isOrdinal isSlot
    rw [update_idem] at dropped
    have kept (other : String) (found : Nat) (member : found ∈ slots)
        (held : index.terms[other]? = some found) :
        (Bm25Index.dropTerm ordinal index slot).terms[other]? = some found := by
      rw [stores.terms_dropTerm isSlot, held]
      rintro rfl
      exact fresh (Option.some.inj (held.symm.trans isSlot) ▸ member)
    have folded := ih dropped
      (lists.dropTerm stores absent isOrdinal isSlot) (tight.dropTerm stores isSlot)
      (same.1.2.1.symm ▸ isOrdinal) distinct
      (fun found member => by
        obtain ⟨other, held⟩ := registered found (mem_cons_of_mem _ member)
        exact ⟨other, kept other found member held⟩)
      fun other mentions => by
        have differs : other ≠ term := by
          rintro rfl
          rw [Doc.recount_self] at mentions
          exact Nat.lt_irrefl 0 mentions
        rw [Doc.recount_of_ne differs] at mentions
        obtain ⟨found, member, held⟩ := all other mentions
        rcases mem_cons.mp member with rfl | later
        · exact absurd (stores.termLeases.unique other term found held isSlot) differs
        · exact ⟨found, later, kept other found later held⟩
    exact folded

/-! ## The ordinal is given back -/

/-- The index without the document, which is under no term any more. -/
def giveBack (index : Bm25Index) (id : RowId) (ordinal live total : Nat) : Bm25Index :=
  { index with
    ordinals := index.ordinals.erase id
    docTerms := index.docTerms.set ordinal []
    live := live
    totalLength := total
    lengths := index.lengths.set ordinal 0
    freeDocs := ordinal :: index.freeDocs }

theorem places_giveBack {live total : Nat} (absent : docs id = none) (place : Nat)
    (other : Doc) : (index.giveBack id ordinal live total).Places docs place other ↔
      index.Places docs place other := by
  refine exists_congr fun row => and_congr_left fun isOther => ?_
  have differs : row ≠ id := by
    rintro rfl
    rw [absent] at isOther
    cases isOther
  have erased := congrFun (getElem?_erase index.ordinals id) row
  rw [update_of_ne differs] at erased
  exact iff_of_eq (congrArg (· = some place) erased)

theorem Stores.giveBack {length : Nat}
    (stores : index.Stores (update docs id (some ⟨length, fun _ => 0⟩)))
    (absent : docs id = none) (isOrdinal : index.ordinals[id]? = some ordinal)
    (live total : Nat) : (index.giveBack id ordinal live total).Stores docs := by
  have inside := stores.docLeases.lt id ordinal isOrdinal
  have erased := getElem?_erase index.ordinals id
  have notId {row : RowId} {doc : Doc} (isDoc : docs row = some doc) : row ≠ id := by
    rintro rfl
    rw [absent] at isDoc
    cases isDoc
  have before {row : RowId} {doc : Doc} (isDoc : docs row = some doc) :
      update docs id (some ⟨length, fun _ => 0⟩) row = some doc := by
    rw [update_of_ne (notId isDoc), isDoc]
  have lengths (place : Nat) : (index.giveBack id ordinal live total).lengthOf place =
      if place = ordinal then 0 else index.lengthOf place :=
    getD_set index.lengths ordinal place 0 0 (stores.lengthsLength ▸ inside)
  have places (place : Nat) (other : Doc) :
      (index.giveBack id ordinal live total).Places docs place other ↔
        index.Places docs place other := places_giveBack absent place other
  have placedBefore {place : Nat} {doc : Doc} (isPlaced : index.Places docs place doc) :
      place ≠ ordinal ∧ index.Places (update docs id (some ⟨length, fun _ => 0⟩)) place doc := by
    obtain ⟨row, isPlace, isDoc⟩ := isPlaced
    refine ⟨?_, row, isPlace, before isDoc⟩
    rintro rfl
    exact notId isDoc (stores.docLeases.unique row id place isPlace isOrdinal)
  refine ⟨?_, stores.termLeases, stores.impactsLength, ?_, ?_, ?_, ?_, ?_, ?_, stores.sorted, ?_,
    ?_, stores.freeTerms, ?_⟩
  · simp only [Bm25Index.giveBack]
    rw [erased]
    exact stores.docLeases.release isOrdinal
  · simpa [Bm25Index.giveBack] using stores.lengthsLength
  · simpa [Bm25Index.giveBack] using stores.docTermsLength
  · intro row
    have isPresent := stores.present row
    change ((fun row : RowId => (index.ordinals.erase id)[row]?) row).isSome = _
    rw [erased]
    by_cases same : row = id
    · rw [same, update_self, absent]
      rfl
    · rw [update_of_ne same] at isPresent ⊢
      exact isPresent
  · exact fun row doc term isDoc => stores.named row doc term (before isDoc)
  · intro row place isPlace
    have isPlace' := (congrFun erased row).symm.trans isPlace
    by_cases same : row = id
    · rw [same, update_self] at isPlace'
      cases isPlace'
    · rw [update_of_ne same] at isPlace'
      exact stores.ids row place isPlace'
  · intro place doc isPlaced
    obtain ⟨differs, isPlacedBefore⟩ := placedBefore ((places place doc).mp isPlaced)
    rw [lengths, if_neg differs]
    exact stores.lengths place doc isPlacedBefore
  · intro term slot isSlot posting
    refine (stores.postings term slot isSlot posting).trans ?_
    constructor
    · rintro ⟨doc, ⟨row, isPlace, isDoc⟩, occurs, isFrequency⟩
      have differs : row ≠ id := by
        rintro rfl
        rw [update_self] at isDoc
        cases isDoc
        exact Nat.lt_irrefl 0 occurs
      rw [update_of_ne differs] at isDoc
      exact ⟨doc, (places _ _).mpr ⟨row, isPlace, isDoc⟩, occurs, isFrequency⟩
    · rintro ⟨doc, isPlaced, occurs, isFrequency⟩
      exact ⟨doc, (placedBefore ((places _ _).mp isPlaced)).2, occurs, isFrequency⟩
  · exact fun term slot isSlot row doc isDoc => stores.impacts term slot isSlot row doc (before isDoc)
  · intro place member
    rw [lengths]
    split
    · rfl
    · rename_i differs
      exact stores.freeDocs place ((mem_cons.mp member).resolve_left differs)

theorem Lists.giveBack {live total : Nat} (lists : index.Lists docs) (absent : docs id = none)
    (inside : ordinal < index.docTerms.length)
    (apart : ∀ doc, ¬index.Places docs ordinal doc) :
    (index.giveBack id ordinal live total).Lists docs := by
  have listed (other : Nat) : (index.giveBack id ordinal live total).termsOf other =
      if other = ordinal then [] else index.termsOf other :=
    getD_set index.docTerms ordinal other [] [] inside
  have places (place : Nat) (other : Doc) :
      (index.giveBack id ordinal live total).Places docs place other ↔
        index.Places docs place other := places_giveBack absent place other
  refine ⟨fun place => ?_, fun place doc isPlaced found => ?_, fun place member => ?_⟩
  · rw [listed]
    split
    · exact nodup_nil
    · exact lists.nodup place
  · have isPlacedBefore := (places place doc).mp isPlaced
    have differs : place ≠ ordinal := by
      rintro rfl
      exact apart doc isPlacedBefore
    rw [listed, if_neg differs]
    exact lists.mem place doc isPlacedBefore found
  · rw [listed]
    split
    · rfl
    · rename_i differs
      exact lists.freeDocs place ((mem_cons.mp member).resolve_left differs)

/-! ## The whole removal -/

theorem foldl_dropTerm_with (slots : List Nat) (ordinals : Std.ExtTreeMap RowId Nat)
    (docTerms : List (List Nat)) :
    slots.foldl (dropTerm ordinal) { index with ordinals := ordinals, docTerms := docTerms } =
      { slots.foldl (dropTerm ordinal) index with ordinals := ordinals, docTerms := docTerms } := by
  induction slots generalizing index with
  | nil => rfl
  | cons slot slots ih =>
    have step : dropTerm ordinal { index with ordinals := ordinals, docTerms := docTerms } slot =
        { dropTerm ordinal index slot with ordinals := ordinals, docTerms := docTerms } := by
      by_cases isEmpty : removePosting ordinal (index.postingsOf slot) = []
      · exact (if_pos isEmpty).trans (by rw [dropTerm_eq, if_pos isEmpty]; rfl)
      · exact (if_neg isEmpty).trans (by rw [dropTerm_eq, if_neg isEmpty]; rfl)
    rw [foldl_cons, foldl_cons, step, ih]

/-- An index holds a set of documents. -/
structure Holds (index : Bm25Index) (docs : RowId -> Option Doc) : Prop where
  stores : index.Stores docs
  lists : index.Lists docs
  tight : index.Tight

theorem remove_eq (isOrdinal : index.ordinals[id]? = some ordinal) :
    index.remove id = giveBack ((index.termsOf ordinal).foldl (dropTerm ordinal) index) id ordinal
      (index.live - 1) (index.totalLength - index.lengthOf ordinal) := by
  obtain ⟨⟨-, ordinals, -⟩, lengths, docTerms, live, total⟩ :=
    sameEntries_foldl index ordinal (index.termsOf ordinal)
  unfold remove giveBack
  rw [isOrdinal]
  simp only
  rw [foldl_dropTerm_with]
  simp only [lengthOf, ordinals, lengths, docTerms, live, total]

theorem Holds.remove (holds : index.Holds docs) (id : RowId) :
    (index.remove id).Holds (update docs id none) ∧
      (docs id = none ∧ index.remove id = index ∨ ∃ doc, docs id = some doc ∧
        (index.remove id).live = index.live - 1 ∧
        (index.remove id).totalLength = index.totalLength - doc.length ∧
        (index.remove id).ids = index.ids ∧ (index.remove id).freeDocs ≠ []) := by
  obtain ⟨stores, lists, tight⟩ := holds
  have isPresent := stores.present id
  cases isDoc : docs id with
  | none =>
    have absent : index.ordinals[id]? = none := by
      rw [<- not_isSome_iff_eq_none, isPresent, isDoc]
      exact Bool.false_ne_true
    have unchanged : index.remove id = index := by rw [Bm25Index.remove, absent]
    rw [unchanged, update_eq_self_iff.mpr isDoc.symm]
    exact ⟨⟨stores, lists, tight⟩, .inl ⟨rfl, rfl⟩⟩
  | some doc =>
    rw [isDoc, isSome_some, isSome_iff_exists] at isPresent
    obtain ⟨ordinal, isOrdinal⟩ := isPresent
    have isPlaced : index.Places docs ordinal doc := ⟨id, isOrdinal, isDoc⟩
    have back : update (update docs id none) id (some doc) = docs := by
      rw [update_idem, update_eq_self_iff.mpr isDoc.symm]
    have absent : update docs id none id = none := update_self ..
    have others : index.Lists (update docs id none) := by
      refine ⟨lists.nodup, fun place other isOther => ?_, lists.freeDocs⟩
      obtain ⟨row, isPlace, isOther⟩ := isOther
      have differs : row ≠ id := by
        rintro rfl
        rw [update_self] at isOther
        cases isOther
      rw [update_of_ne differs] at isOther
      exact lists.mem place other ⟨row, isPlace, isOther⟩
    have same := sameEntries_foldl index ordinal (index.termsOf ordinal)
    obtain ⟨storesNext, listsNext, tightNext⟩ := Stores.foldl_dropTerm (back.symm ▸ stores) others
      tight absent isOrdinal (index.termsOf ordinal) (lists.nodup ordinal)
      (fun slot member => by
        obtain ⟨term, held, -⟩ := (lists.mem ordinal doc isPlaced slot).mp member
        exact ⟨term, held⟩)
      fun term mentions => by
        obtain ⟨slot, held⟩ := isSome_iff_exists.mp (stores.named id doc term isDoc mentions)
        exact ⟨slot, (lists.mem ordinal doc isPlaced slot).mpr ⟨term, held, mentions⟩, held⟩
    rw [remove_eq isOrdinal]
    have isOrdinalNext := isOrdinal
    rw [<- same.1.2.1] at isOrdinalNext
    refine ⟨⟨storesNext.giveBack absent isOrdinalNext _ _, ?_, tightNext⟩, .inr ⟨doc, rfl, rfl, ?_,
      same.1.1, cons_ne_nil _ _⟩⟩
    · refine listsNext.giveBack absent ?_ ?_
      · rw [same.2.2.1, stores.docTermsLength]
        exact stores.docLeases.lt id ordinal isOrdinal
      · rintro other ⟨row, isPlace, isOther⟩
        rw [same.1.2.1] at isPlace
        obtain rfl := stores.docLeases.unique row id ordinal isPlace isOrdinal
        rw [absent] at isOther
        cases isOther
    · exact congrArg (index.totalLength - ·) (stores.lengths ordinal doc isPlaced)

end InlaySql.Bm25.Bm25Index
