import InlaySql.Bm25.Index
import InlaySql.Lib.Leases

/-!
# What the index holds of a document

A document is its length and how often each term occurs in it. The index stores a set of
documents if each term's postings are, in the order of ordinals, the documents it occurs in,
and the impact of a term bounds what is under it. Each operation of an insertion or a removal
is told by what it does to the documents stored: a term gets an ordinal, a document gets one, a
document is entered under a term or taken from under it.
-/

namespace InlaySql.Bm25

open List Lib Sql Function

/-- What is indexed of a text. -/
structure Doc where
  length : Nat
  count : String -> Nat

namespace Bm25Index

variable {index : Bm25Index} {docs : RowId -> Option Doc}

/-- The document stands under the ordinal. -/
def Places (index : Bm25Index) (docs : RowId -> Option Doc) (ordinal : Nat) (doc : Doc) : Prop :=
  ∃ id, index.ordinals[id]? = some ordinal ∧ docs id = some doc

structure Stores (index : Bm25Index) (docs : RowId -> Option Doc) : Prop where
  docLeases : Leased (fun id : RowId => index.ordinals[id]?) index.freeDocs index.ids.length
  termLeases : Leased (fun term : String => index.terms[term]?) index.freeTerms
    index.postings.length
  impactsLength : index.impacts.length = index.postings.length
  lengthsLength : index.lengths.length = index.ids.length
  docTermsLength : index.docTerms.length = index.ids.length
  present : ∀ id : RowId, (index.ordinals[id]?).isSome = (docs id).isSome
  named : ∀ (id : RowId) (doc : Doc) (term : String), docs id = some doc → 0 < doc.count term → (index.terms[term]?).isSome
  ids : ∀ (id : RowId) (ordinal : Nat), index.ordinals[id]? = some ordinal → index.ids[ordinal]? = some id
  lengths : ∀ ordinal doc, index.Places docs ordinal doc -> index.lengthOf ordinal = doc.length
  sorted : ∀ (term : String) (slot : Nat), index.terms[term]? = some slot ->
    (index.postingsOf slot).Pairwise (·.doc < ·.doc)
  postings : ∀ (term : String) (slot : Nat), index.terms[term]? = some slot -> ∀ posting,
    posting ∈ index.postingsOf slot ↔ ∃ doc, index.Places docs posting.doc doc ∧
      0 < doc.count term ∧ posting.frequency = doc.count term
  /-- A term's bounds dominate what is under it. -/
  impacts : ∀ (term : String) (slot : Nat), index.terms[term]? = some slot → ∀ id doc, docs id = some doc →
    0 < doc.count term ->
      doc.count term ≤ (index.impactOf slot).maxFrequency ∧
        (index.impactOf slot).minLength ≤ doc.length
  /-- An ordinal that can be given out again has no stale posting. -/
  freeTerms : ∀ slot ∈ index.freeTerms, index.postingsOf slot = []
  freeDocs : ∀ ordinal ∈ index.freeDocs, index.lengthOf ordinal = 0

/-- Each document has the list of its terms, and an ordinal given back has none. -/
structure Lists (index : Bm25Index) (docs : RowId -> Option Doc) : Prop where
  nodup : ∀ ordinal, (index.termsOf ordinal).Nodup
  mem : ∀ ordinal doc, index.Places docs ordinal doc -> ∀ slot,
    slot ∈ index.termsOf ordinal ↔ ∃ term, index.terms[term]? = some slot ∧ 0 < doc.count term
  freeDocs : ∀ ordinal ∈ index.freeDocs, index.termsOf ordinal = []

theorem Stores.places_unique (stores : index.Stores docs) {ordinal : Nat} {one other : Doc}
    (isOne : index.Places docs ordinal one) (isOther : index.Places docs ordinal other) :
    one = other := by
  obtain ⟨id, atOrdinal, isDoc⟩ := isOne
  obtain ⟨id', atOrdinal', isDoc'⟩ := isOther
  obtain rfl := stores.docLeases.unique id id' ordinal atOrdinal atOrdinal'
  exact Option.some.inj (isDoc.symm.trans isDoc')

section

variable {κ ι : Type} [Ord κ] [Std.TransOrd κ] [Std.LawfulEqOrd κ] [DecidableEq κ]
    (map : Std.ExtTreeMap κ ι) (key : κ)

include map key

theorem getElem?_insert (value : ι) : (fun other : κ => (map.insert key value)[other]?) =
      update (fun other : κ => map[other]?) key (some value) := by
  funext other
  by_cases same : other = key
  · simp [same]
  · rw [update_of_ne same, Std.ExtTreeMap.getElem?_insert, if_neg]
    simpa using Ne.symm same

theorem getElem?_erase : (fun other : κ => (map.erase key)[other]?) =
      update (fun other : κ => map[other]?) key none := by
  funext other
  by_cases same : other = key
  · simp [same]
  · rw [update_of_ne same, Std.ExtTreeMap.getElem?_erase, if_neg]
    simpa using Ne.symm same

end

/-! ## A term gets an ordinal -/

/-- The fields an index keeps when a term gets an ordinal. -/
def SameDocs (before after : Bm25Index) : Prop :=
  after.ids = before.ids ∧ after.ordinals = before.ordinals ∧ after.lengths = before.lengths ∧
    after.docTerms = before.docTerms ∧ after.freeDocs = before.freeDocs ∧
    after.live = before.live ∧ after.totalLength = before.totalLength

variable {next middle last : Bm25Index}

theorem SameDocs.places (same : SameDocs index next) (docs : RowId -> Option Doc) :
    next.Places docs = index.Places docs := by
  unfold Places
  rw [same.2.1]

theorem Stores.register (stores : index.Stores docs) {term : String} {slot : Nat}
    (absent : index.terms[term]? = none) (same : SameDocs index next)
    (terms : next.terms = index.terms.insert term slot)
    (leases : Leased (update (fun term : String => index.terms[term]?) term (some slot))
      next.freeTerms next.postings.length)
    (impactsLength : next.impacts.length = next.postings.length)
    (cleared : next.postingsOf slot = [])
    (others : ∀ other ≠ slot, next.postingsOf other = index.postingsOf other ∧ next.impactOf other =
      index.impactOf other) (free : ∀ other ∈ next.freeTerms, other ∈ index.freeTerms) :
    next.Stores docs := by
  have registered (other : String) (found : Nat) (isFound : next.terms[other]? = some found) :
      other = term ∧ found = slot ∨
        other ≠ term ∧ found ≠ slot ∧ index.terms[other]? = some found := by
    have isFound' : update (fun term : String => index.terms[term]?) term (some slot) other =
        some found := by
      rw [<- getElem?_insert, <- terms]
      exact isFound
    rcases Leased.update_eq_some isFound' with same | ⟨differs, before⟩
    · exact .inl same
    · refine .inr ⟨differs, ?_, before⟩
      rintro rfl
      exact differs (leases.unique other term found isFound' (update_self ..))
  have unmentioned (id : RowId) (doc : Doc) (isDoc : docs id = some doc) : ¬0 < doc.count term := by
    intro occurs
    have isNamed := stores.named id doc term isDoc occurs
    rw [absent] at isNamed
    cases isNamed
  have places : next.Places docs = index.Places docs := same.places docs
  obtain ⟨ids, ordinals, lengths, docTerms, freeDocs, -, -⟩ := same
  refine ⟨?_, ?_, impactsLength, ?_, ?_, ?_, ?_, ?_, ?_, ?_, ?_, ?_, ?_, ?_⟩
  · rw [ordinals, freeDocs, ids]
    exact stores.docLeases
  · rw [terms, getElem?_insert]
    exact leases
  · rw [lengths, ids]
    exact stores.lengthsLength
  · rw [docTerms, ids]
    exact stores.docTermsLength
  · intro id
    rw [ordinals]
    exact stores.present id
  · intro id doc other isDoc occurs
    have before := stores.named id doc other isDoc occurs
    rw [terms, Std.ExtTreeMap.getElem?_insert]
    split
    · rfl
    · exact before
  · intro id ordinal isOrdinal
    rw [ids]
    exact stores.ids id ordinal (ordinals ▸ isOrdinal)
  · intro ordinal doc isPlaced
    rw [lengthOf, lengths]
    exact stores.lengths ordinal doc (places ▸ isPlaced)
  · intro other found isFound
    rcases registered other found isFound with ⟨-, rfl⟩ | ⟨-, differs, before⟩
    · rw [cleared]
      exact List.Pairwise.nil
    · rw [(others found differs).1]
      exact stores.sorted other found before
  · intro other found isFound posting
    rw [places]
    rcases registered other found isFound with ⟨rfl, rfl⟩ | ⟨-, differs, before⟩
    · rw [cleared]
      refine ⟨fun member => absurd member not_mem_nil, ?_⟩
      rintro ⟨doc, ⟨id, -, isDoc⟩, occurs, -⟩
      exact absurd occurs (unmentioned id doc isDoc)
    · rw [(others found differs).1]
      exact stores.postings other found before posting
  · intro other found isFound id doc isDoc occurs
    rcases registered other found isFound with ⟨rfl, -⟩ | ⟨-, differs, before⟩
    · exact absurd occurs (unmentioned id doc isDoc)
    · rw [(others found differs).2]
      exact stores.impacts other found before id doc isDoc occurs
  · intro other member
    by_cases isSlot : other = slot
    · rw [isSlot, cleared]
    · rw [(others other isSlot).1]
      exact stores.freeTerms other (free other member)
  · intro ordinal member
    rw [lengthOf, lengths]
    exact stores.freeDocs ordinal (freeDocs ▸ member)

/-- Some terms got ordinals, and what the others had stays. -/
structure Names (index next : Bm25Index) (terms : List String) : Prop where
  sameDocs : SameDocs index next
  kept : ∀ (other : String) (old : Nat), index.terms[other]? = some old ->
    next.terms[other]? = some old ∧ next.postingsOf old = index.postingsOf old
  named : ∀ term ∈ terms, (next.terms[term]?).isSome
  fresh : ∀ (other : String) (slot : Nat), next.terms[other]? = some slot ->
    index.terms[other]? = some slot ∨ other ∈ terms

theorem Names.refl (index : Bm25Index) : Names index index [] where
  sameDocs := ⟨rfl, rfl, rfl, rfl, rfl, rfl, rfl⟩
  kept := fun _ _ held => ⟨held, rfl⟩
  named := by simp
  fresh := fun _ _ held => .inl held

theorem SameDocs.trans (first : SameDocs index middle) (second : SameDocs middle last) :
    SameDocs index last := by
  obtain ⟨ids, ordinals, lengths, docTerms, freeDocs, live, total⟩ := first
  obtain ⟨ids', ordinals', lengths', docTerms', freeDocs', live', total'⟩ := second
  exact ⟨ids'.trans ids, ordinals'.trans ordinals, lengths'.trans lengths,
    docTerms'.trans docTerms, freeDocs'.trans freeDocs, live'.trans live, total'.trans total⟩

theorem Names.trans {terms more : List String} (first : Names index middle terms)
    (second : Names middle last more) :
    Names index last (terms ++ more) where
  sameDocs := first.sameDocs.trans second.sameDocs
  kept := by
    intro other old held
    obtain ⟨heldMiddle, sameMiddle⟩ := first.kept other old held
    obtain ⟨heldLast, sameLast⟩ := second.kept other old heldMiddle
    exact ⟨heldLast, sameLast.trans sameMiddle⟩
  named := by
    intro term member
    rcases mem_append.mp member with before | now
    · obtain ⟨slot, held⟩ := Option.isSome_iff_exists.mp (first.named term before)
      rw [(second.kept term slot held).1]
      rfl
    · exact second.named term now
  fresh := by
    intro other slot held
    rcases second.fresh other slot held with heldMiddle | now
    · exact (first.fresh other slot heldMiddle).imp_right (mem_append_left _)
    · exact .inr (mem_append_right _ now)

theorem postingsOf_set (postings : List (List Posting)) (slot other : Nat) :
    ((postings.set slot [])[other]?).getD [] =
      if other = slot then [] else (postings[other]?).getD [] := by
  rw [getElem?_set]
  by_cases same : other = slot
  · subst same
    by_cases inside : other < postings.length <;> simp [inside]
  · simp [same, Ne.symm same]

theorem getD_append_default {α : Type} (items : List α) (value : α) (other : Nat) :
    ((items ++ [value])[other]?).getD value = (items[other]?).getD value := by
  rcases Nat.lt_trichotomy other items.length with before | rfl | after
  · rw [getElem?_append_left before]
  · simp
  · rw [getElem?_eq_none (by simp; omega), getElem?_eq_none (by omega)]

theorem Stores.termFor (stores : index.Stores docs) (term : String)
    (room : index.terms[term]? = none -> index.freeTerms = [] -> index.postings.length < 2 ^ 32) :
    ∃ next slot, index.termFor term = (next, slot) ∧ next.Stores docs ∧ Names index next [term] ∧
      next.terms[term]? = some slot := by
  cases isTerm : index.terms[term]? with
  | some slot =>
    refine ⟨index, slot, by rw [Bm25Index.termFor, isTerm], stores, ?_, isTerm⟩
    refine ⟨(Names.refl index).sameDocs, (Names.refl index).kept, fun other member => ?_,
      fun _ _ => .inl⟩
    rw [mem_singleton.mp member, isTerm]
    rfl
  | none =>
    have names (next : Bm25Index) {slot : Nat} (same : SameDocs index next)
        (terms : next.terms = index.terms.insert term slot)
        (unheld : ∀ other : String, index.terms[other]? ≠ some slot)
        (others : ∀ other ≠ slot, next.postingsOf other = index.postingsOf other) :
        Names index next [term] ∧ next.terms[term]? = some slot := by
      refine ⟨⟨same, fun other old held => ⟨?_, others old ?_⟩, ?_, fun other found held => ?_⟩,
        by simp [terms]⟩
      · rw [terms, Std.ExtTreeMap.getElem?_insert, if_neg, held]
        rintro equal
        rw [<- Std.LawfulEqOrd.eq_of_compare equal, isTerm] at held
        cases held
      · rintro rfl
        exact unheld other held
      · simp [terms]
      · rw [terms, Std.ExtTreeMap.getElem?_insert] at held
        split at held
        · rename_i equal
          exact .inr (by simp [Std.LawfulEqOrd.eq_of_compare equal])
        · exact .inl held
    cases isFree : index.freeTerms with
    | cons reused free =>
      have leases := stores.termLeases
      rw [isFree] at leases
      have cleared (other : Nat) : postingsOf { index with
          postings := index.postings.set reused []
          impacts := index.impacts.set reused .default
          freeTerms := free
          terms := index.terms.insert term reused } other =
            if other = reused then [] else index.postingsOf other :=
        postingsOf_set index.postings reused other
      obtain ⟨isNames, isSlot⟩ := names { index with
          postings := index.postings.set reused []
          impacts := index.impacts.set reused .default
          freeTerms := free
          terms := index.terms.insert term reused } ⟨rfl, rfl, rfl, rfl, rfl, rfl, rfl⟩ rfl
        (fun other held => leases.apart other reused held mem_cons_self)
        fun other differs => by rw [cleared, if_neg differs]
      refine ⟨_, reused, by rw [Bm25Index.termFor, isTerm, isFree], ?_, isNames, isSlot⟩
      refine stores.register isTerm ⟨rfl, rfl, rfl, rfl, rfl, rfl, rfl⟩ rfl ?_ ?_ ?_ ?_ ?_
      · rw [length_set]
        exact leases.reuse isTerm
      · simpa using stores.impactsLength
      · rw [cleared, if_pos rfl]
      · intro other differs
        refine ⟨by rw [cleared, if_neg differs], ?_⟩
        simp only [impactOf]
        rw [getElem?_set_ne (Ne.symm differs)]
      · intro other member
        rw [isFree]
        exact mem_cons_of_mem _ member
    | nil =>
      have ordinal : asU32 index.postings.length = index.postings.length :=
        Nat.mod_eq_of_lt (room isTerm isFree)
      have leases := stores.termLeases
      have appended (other : Nat) : postingsOf { index with
          postings := index.postings ++ [[]]
          impacts := index.impacts ++ [.default]
          terms := index.terms.insert term index.postings.length } other =
            index.postingsOf other :=
        getD_append_default index.postings [] other
      obtain ⟨isNames, isSlot⟩ := names { index with
          postings := index.postings ++ [[]]
          impacts := index.impacts ++ [.default]
          terms := index.terms.insert term index.postings.length }
        ⟨rfl, rfl, rfl, rfl, rfl, rfl, rfl⟩ rfl
        (fun other held => Nat.lt_irrefl _ (leases.lt other _ held))
        fun other _ => appended other
      refine ⟨_, index.postings.length, by rw [Bm25Index.termFor, isTerm, isFree, ordinal], ?_,
        isNames, isSlot⟩
      refine stores.register isTerm ⟨rfl, rfl, rfl, rfl, rfl, rfl, rfl⟩ rfl ?_ ?_ ?_ ?_ ?_
      · rw [length_append, length_singleton]
        exact leases.grow isTerm
      · simp [stores.impactsLength]
      · rw [appended, postingsOf, getElem?_eq_none (Nat.le_refl _)]
        rfl
      · exact fun other _ => ⟨appended other, getD_append_default index.impacts .default other⟩
      · exact fun other member => member

/-! ## Tokens are counted -/

/-- Under the ordinal of each term it stands how often the term occurs. -/
def Counts (index : Bm25Index) (frequencies : Std.ExtTreeMap Nat Nat) (tokens : List String) :
    Prop :=
  ∀ slot frequency, frequencies[slot]? = some frequency ↔
    ∃ term ∈ tokens, index.terms[term]? = some slot ∧ frequency = tokens.count term

theorem Counts.step {next : Bm25Index} {frequencies : Std.ExtTreeMap Nat Nat}
    {tokens : List String} (counts : Counts index frequencies tokens)
    (known : ∀ term ∈ tokens, (index.terms[term]?).isSome) {token : String} {slot : Nat}
    (stores : next.Stores docs) (names : Names index next [token])
    (isSlot : next.terms[token]? = some slot) (short : tokens.length + 1 < 2 ^ 32) :
    Counts next (frequencies.insert slot (asU32 ((frequencies[slot]?).getD 0 + 1)))
      (tokens ++ [token]) := by
  have ownSlot (term : String) (held : next.terms[term]? = some slot) : term = token :=
    stores.termLeases.unique term token slot held isSlot
  have counted : (frequencies[slot]?).getD 0 = tokens.count token := by
    cases isCounted : frequencies[slot]? with
    | some already =>
      obtain ⟨term, -, held, rfl⟩ := (counts slot already).mp isCounted
      rw [ownSlot term (names.kept term slot held).1]
      rfl
    | none =>
      refine (count_eq_zero_of_not_mem fun member => ?_).symm
      obtain ⟨old, held⟩ := Option.isSome_iff_exists.mp (known token member)
      obtain rfl := Option.some.inj ((names.kept token old held).1.symm.trans isSlot)
      have present := (counts old _).mpr ⟨token, member, held, rfl⟩
      rw [isCounted] at present
      cases present
  have one : asU32 ((frequencies[slot]?).getD 0 + 1) = (tokens ++ [token]).count token := by
    have bounded : tokens.count token ≤ tokens.length := count_le_length
    rw [counted, asU32, Nat.mod_eq_of_lt (by omega), count_append, count_singleton_self]
  intro found frequency
  rw [Std.ExtTreeMap.getElem?_insert, one]
  by_cases same : slot = found
  · subst same
    rw [if_pos (by simp), Option.some.injEq]
    constructor
    · rintro rfl
      exact ⟨token, by simp, isSlot, rfl⟩
    · rintro ⟨term, -, held, rfl⟩
      rw [ownSlot term held]
  · rw [if_neg (by simpa using same), counts]
    have other (term : String) (held : next.terms[term]? = some found) :
        index.terms[term]? = some found ∧ (tokens ++ [token]).count term = tokens.count term := by
      have differs : term ≠ token := by
        rintro rfl
        exact same (Option.some.inj (isSlot.symm.trans held))
      refine ⟨(names.fresh term found held).resolve_right fun member =>
        differs (mem_singleton.mp member), ?_⟩
      have absent : [token].count term = 0 :=
        count_eq_zero_of_not_mem (by simpa using differs)
      rw [count_append, absent, Nat.add_zero]
    constructor
    · rintro ⟨term, member, held, rfl⟩
      have heldNext := (names.kept term found held).1
      exact ⟨term, mem_append_left _ member, heldNext, (other term heldNext).2.symm⟩
    · rintro ⟨term, member, held, rfl⟩
      refine ⟨term, ?_, (other term held).1, (other term held).2⟩
      rcases mem_append.mp member with before | now
      · exact before
      · rw [mem_singleton.mp now] at held
        exact absurd (Option.some.inj (isSlot.symm.trans held)) same

theorem Stores.foldl_countToken (stores : index.Stores docs) {tokens : List String}
    (short : tokens.length < 2 ^ 32) (vocabulary : Finset String) (room : vocabulary.card ≤ 2 ^ 32)
    (registered : ∀ term : String, (index.terms[term]?).isSome -> term ∈ vocabulary)
    (inside : ∀ token ∈ tokens, token ∈ vocabulary) :
    ∃ next frequencies, tokens.foldl countToken (index, ∅) = (next, frequencies) ∧
      next.Stores docs ∧ Names index next tokens ∧ Counts next frequencies tokens := by
  have general (done rest : List String) (middle : Bm25Index)
      (frequencies : Std.ExtTreeMap Nat Nat) (storesMiddle : middle.Stores docs)
      (names : Names index middle done) (counts : Counts middle frequencies done)
      (registered : ∀ term : String, (middle.terms[term]?).isSome -> term ∈ vocabulary)
      (inside : ∀ token ∈ rest, token ∈ vocabulary) (all : done.length + rest.length < 2 ^ 32) :
      ∃ next frequenciesNext, rest.foldl countToken (middle, frequencies) =
          (next, frequenciesNext) ∧ next.Stores docs ∧ Names index next (done ++ rest) ∧
        Counts next frequenciesNext (done ++ rest) := by
    induction rest generalizing done middle frequencies with
    | nil =>
      rw [append_nil]
      exact ⟨middle, frequencies, rfl, storesMiddle, names, counts⟩
    | cons token rest ih =>
      rw [length_cons] at all
      have known := inside token mem_cons_self
      obtain ⟨next, slot, named, storesNext, namesNext, isSlot⟩ :=
        storesMiddle.termFor token fun absent isFree => by
          refine lt_of_le_of_lt ((isFree ▸ storesMiddle.termLeases).size_le
            (vocabulary.erase token) fun term isNamed => ?_)
            ((Finset.card_erase_lt_of_mem known).trans_le room)
          refine Finset.mem_erase.mpr ⟨?_, registered term isNamed⟩
          rintro rfl
          simp only [absent] at isNamed
          cases isNamed
      have countsNext := counts.step names.named storesNext namesNext isSlot (by omega)
      obtain ⟨last, frequenciesLast, folded, storesLast, namesLast, countsLast⟩ :=
        ih (done ++ [token]) next _ storesNext (names.trans namesNext) countsNext
          (fun term isNamed => by
            obtain ⟨found, held⟩ := Option.isSome_iff_exists.mp isNamed
            rcases namesNext.fresh term found held with before | isToken
            · exact registered term (by rw [before]; rfl)
            · rw [mem_singleton.mp isToken]
              exact known)
          (fun other member => inside other (mem_cons_of_mem _ member))
          (by rw [length_append, length_singleton]; omega)
      rw [append_assoc, singleton_append] at namesLast countsLast
      refine ⟨last, frequenciesLast, ?_, storesLast, namesLast, countsLast⟩
      rw [foldl_cons, countToken, named]
      exact folded
  have none_counted : Counts index ∅ [] := by
    intro slot frequency
    simp
  exact general [] tokens index ∅ stores (.refl index) none_counted registered inside
    (by simpa using short)

end Bm25Index

end InlaySql.Bm25
