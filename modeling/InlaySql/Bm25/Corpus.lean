import InlaySql.Bm25.Insertion
import InlaySql.Bm25.Contents

/-!
# The index of a corpus

A corpus is a map from row ids to texts. An index agrees with a corpus if it holds its documents
and counts them and their terms. Insertions, removals and a reload from the stored bytes keep an
index in agreement, as long as the corpus stays within what 32-bit ordinals and counts can say.
-/

namespace InlaySql.Bm25

open List Lib Sql Function Bm25Index

abbrev Corpus := Std.ExtTreeMap RowId String

namespace Corpus

variable (isAlphanumeric : Char -> Bool) (bound : Nat) (texts : Corpus)

/-- What is indexed of the corpus. -/
def docs (id : RowId) : Option Doc := (texts[id]?).map (docOf isAlphanumeric)

/-- The tokens of all texts. -/
def length : Nat := (texts.toList.map fun entry => (docOf isAlphanumeric entry.2).length).sum

/-- The rows that mention a term, in order, with how often they do. -/
def rows (term : String) : List (RowId × Nat) :=
  texts.toList.filterMap fun entry =>
    if 0 < (docOf isAlphanumeric entry.2).count term then
      some (entry.1, (docOf isAlphanumeric entry.2).count term)
    else none

/-- The terms of all texts. -/
def vocabulary : List String :=
  (texts.toList.flatMap fun entry => tokenize isAlphanumeric entry.2).dedup

/-- The corpus is within 32 bits: its terms, and the tokens of each text; and its rows within a
bound. -/
structure Within : Prop where
  rows : texts.size ≤ bound
  vocabulary : (texts.vocabulary isAlphanumeric).length < 2 ^ 32
  id : ∀ (id : RowId) (text : String), texts[id]? = some text -> id < 2 ^ 64
  tokens : ∀ (id : RowId) (text : String), texts[id]? = some text ->
    (tokenize isAlphanumeric text).length < 2 ^ 32
  short : ∀ (id : RowId) (text : String), texts[id]? = some text ->
    ∀ token ∈ tokenize isAlphanumeric text, Short token

variable {isAlphanumeric bound texts} {id : RowId} {text : String}

theorem docs_insert : docs isAlphanumeric (texts.insert id text) =
    update (docs isAlphanumeric texts) id (some (docOf isAlphanumeric text)) := by
  funext other
  have inserted := congrFun (getElem?_insert texts id text) other
  simp only [docs]
  rw [inserted]
  by_cases same : other = id
  · rw [same, update_self, update_self]
    rfl
  · rw [update_of_ne same, update_of_ne same]
    rfl

theorem docs_erase : docs isAlphanumeric (texts.erase id) =
    update (docs isAlphanumeric texts) id none := by
  funext other
  have erased := congrFun (getElem?_erase texts id) other
  simp only [docs]
  rw [erased]
  by_cases same : other = id
  · rw [same, update_self, update_self]
    rfl
  · rw [update_of_ne same, update_of_ne same]
    rfl

theorem nodup_toList : texts.toList.Nodup :=
  List.Nodup.of_map Prod.fst (Std.ExtTreeMap.map_fst_toList_eq_keys (t := texts) ▸
    Std.ExtTreeMap.nodup_keys)

theorem toList_perm (held : texts[id]? = some text) :
    texts.toList.Perm ((id, text) :: (texts.erase id).toList) := by
  have erased (other : RowId) := congrFun (getElem?_erase texts id) other
  refine (perm_ext_iff_of_nodup nodup_toList (nodup_cons.mpr ⟨?_, nodup_toList⟩)).mpr ?_
  · rw [Std.ExtTreeMap.mem_toList_iff_getElem?_eq_some]
    simp
  · rintro ⟨other, found⟩
    rw [mem_cons, Std.ExtTreeMap.mem_toList_iff_getElem?_eq_some,
      Std.ExtTreeMap.mem_toList_iff_getElem?_eq_some, erased, Prod.mk.injEq]
    by_cases same : other = id
    · subst same
      simp [held, eq_comm]
    · simp [same]

theorem erase_insert : (texts.insert id text).erase id = texts.erase id := by
  refine Std.ExtTreeMap.ext_getElem? fun other => ?_
  rw [Std.ExtTreeMap.getElem?_erase, Std.ExtTreeMap.getElem?_erase, Std.ExtTreeMap.getElem?_insert]
  split
  · rfl
  · rfl

theorem length_of_held (held : texts[id]? = some text) : length isAlphanumeric texts =
    (docOf isAlphanumeric text).length + length isAlphanumeric (texts.erase id) := by
  rw [length, ((toList_perm held).map _).sum_eq]
  rfl

theorem size_of_held (held : texts[id]? = some text) : texts.size = (texts.erase id).size + 1 := by
  have lengths := (toList_perm held).length_eq
  simpa using lengths

end Corpus

namespace Bm25Index

variable {isAlphanumeric : Char -> Bool} {bound : Nat} {index : Bm25Index} {texts : Corpus}
  {id : RowId} {text : String}

/-- The index is that of the corpus. -/
structure Agrees (isAlphanumeric : Char -> Bool) (bound : Nat) (index : Bm25Index)
    (texts : Corpus) : Prop where
  holds : index.Holds (texts.docs isAlphanumeric)
  live : index.live = texts.size
  totalLength : index.totalLength = texts.length isAlphanumeric
  ids : index.ids.length ≤ bound

theorem agrees_new : Agrees isAlphanumeric bound new ∅ := by
  have absent (id : RowId) : (∅ : Corpus).docs isAlphanumeric id = none := by simp [Corpus.docs]
  refine ⟨⟨?_, ?_, ?_⟩, ?_, ?_, ?_⟩
  · refine {
      docLeases := ?_, termLeases := ?_, impactsLength := rfl, lengthsLength := rfl,
      docTermsLength := rfl, present := ?_, named := ?_, ids := ?_, lengths := ?_, sorted := ?_,
      postings := ?_, impacts := ?_, freeTerms := ?_, freeDocs := ?_ }
    all_goals simp [new, absent, Places, Leased.empty]
  · refine ⟨?_, ?_, ?_⟩
    all_goals simp [new, absent, Places, termsOf]
  · simp [Tight, new]
  · simp [new]
  · have isEmpty : (∅ : Corpus).toList = [] :=
      Std.ExtTreeMap.toList_eq_nil_iff.mpr rfl
    rw [Corpus.length, isEmpty]
    rfl
  · simp [new]

section

variable (agrees : Agrees isAlphanumeric bound index texts)

include agrees

theorem Agrees.remove (id : RowId) :
    Agrees isAlphanumeric bound (index.remove id) (texts.erase id) := by
  obtain ⟨holds, change⟩ := agrees.holds.remove id
  rw [<- Corpus.docs_erase] at holds
  have ids : (index.remove id).ids.length ≤ bound := by
    rw [length_remove]
    exact agrees.ids
  rcases change with ⟨absent, same⟩ | ⟨doc, isDoc, live, total, -⟩
  · have isAbsent : texts[id]? = none := by simpa [Corpus.docs] using absent
    have unchanged : texts.erase id = texts := by
      refine Std.ExtTreeMap.ext_getElem? fun other => ?_
      rw [congrFun (getElem?_erase texts id) other]
      by_cases isId : other = id
      · rw [isId, update_self, isAbsent]
      · rw [update_of_ne isId]
    rw [same, unchanged]
    exact agrees
  · obtain ⟨text, held, rfl⟩ : ∃ text, texts[id]? = some text ∧ docOf isAlphanumeric text = doc := by
      simpa [Corpus.docs] using isDoc
    refine ⟨holds, ?_, ?_, ids⟩
    · rw [live, agrees.live, Corpus.size_of_held held, Nat.add_sub_cancel]
    · rw [total, agrees.totalLength, Corpus.length_of_held held, Nat.add_sub_cancel_left]

theorem Agrees.room (within : Corpus.Within isAlphanumeric bound (texts.insert id text)) :
    Room bound index (texts.docs isAlphanumeric) id (tokenize isAlphanumeric text) := by
  have held : (texts.insert id text)[id]? = some text := Std.ExtTreeMap.getElem?_insert_self
  have spoken {row : RowId} {found token : String}
      (isFound : (texts.insert id text)[row]? = some found)
      (isToken : token ∈ tokenize isAlphanumeric found) :
      token ∈ (Corpus.vocabulary isAlphanumeric (texts.insert id text)).toFinset := by
    rw [mem_toFinset, Corpus.vocabulary, mem_dedup, mem_flatMap]
    exact ⟨(row, found), Std.ExtTreeMap.mem_toList_iff_getElem?_eq_some.mpr isFound, isToken⟩
  have other {row : RowId} (differs : row ≠ id) : (texts.insert id text)[row]? = texts[row]? := by
    rw [congrFun (getElem?_insert texts id text) row, update_of_ne differs]
  refine ⟨within.tokens id text held, ⟨_, ?_, fun token => spoken held, ?_⟩,
    ⟨(texts.erase id).keys.toFinset, ?_, ?_⟩, agrees.ids⟩
  · exact (toFinset_card_le _).trans within.vocabulary.le
  · intro row doc term differs isDoc occurs
    obtain ⟨found, isFound, rfl⟩ : ∃ found, texts[row]? = some found ∧
        docOf isAlphanumeric found = doc := by
      simpa [Corpus.docs] using isDoc
    exact spoken ((other differs).trans isFound) (count_pos_iff.mp occurs)
  · have rows := within.rows
    rw [Corpus.size_of_held held, Corpus.erase_insert] at rows
    rw [toFinset_card_of_nodup Std.ExtTreeMap.nodup_keys, Std.ExtTreeMap.length_keys]
    exact rows
  · intro row differs isPresent
    rw [mem_toFinset, Std.ExtTreeMap.mem_keys, Std.ExtTreeMap.mem_erase]
    refine ⟨by simpa using Ne.symm differs, ?_⟩
    rw [<- Std.ExtTreeMap.isSome_getElem?_iff_mem]
    simpa [Corpus.docs] using isPresent

theorem Agrees.insert (wide : bound ≤ 2 ^ 32)
    (within : Corpus.Within isAlphanumeric bound (texts.insert id text)) :
    Agrees isAlphanumeric bound (index.insert isAlphanumeric id text) (texts.insert id text) := by
  have held : (texts.insert id text)[id]? = some text := Std.ExtTreeMap.getElem?_insert_self
  have removed := agrees.remove id
  obtain ⟨holds, live, total, ids⟩ := agrees.holds.insert wide (agrees.room within)
  rw [<- Corpus.docs_insert] at holds
  refine ⟨holds, ?_, ?_, ids⟩
  · rw [live, removed.live, Corpus.size_of_held held, Corpus.erase_insert]
  · rw [total, removed.totalLength, Corpus.length_of_held held, Corpus.erase_insert, Nat.add_comm]

end

/-! ## What agreement says of the index -/

/-- The rows of a term in the index, in their order. -/
def rowsOf (self : Bm25Index) (term : String) : List (RowId × Nat) :=
  match self.terms[term]? with
  | some ordinal => self.rowOrdered ordinal
  | none => []

/-- How many documents mention a term, as a search counts them. -/
def documentFrequency (self : Bm25Index) (term : String) : Nat :=
  match self.terms[term]? with
  | some ordinal => (self.postingsOf ordinal).length
  | none => 0

theorem length_rowsOf (index : Bm25Index) (term : String) :
    (index.rowsOf term).length = index.documentFrequency term := by
  unfold rowsOf documentFrequency
  split
  · exact length_rowOrdered
  · rfl

theorem mem_rows {term : String} {frequency : Nat} :
    (id, frequency) ∈ texts.rows isAlphanumeric term ↔ ∃ doc,
      texts.docs isAlphanumeric id = some doc ∧ 0 < doc.count term ∧
        frequency = doc.count term := by
  rw [Corpus.rows, mem_filterMap]
  constructor
  · rintro ⟨⟨row, text⟩, member, isPair⟩
    have held := Std.ExtTreeMap.mem_toList_iff_getElem?_eq_some.mp member
    split at isPair
    · rename_i occurs
      obtain ⟨rfl, rfl⟩ := Prod.mk.inj (Option.some.inj isPair)
      exact ⟨docOf isAlphanumeric text, by simp [Corpus.docs, held], occurs, rfl⟩
    · cases isPair
  · rintro ⟨doc, isDoc, occurs, rfl⟩
    obtain ⟨text, held, rfl⟩ : ∃ text, texts[id]? = some text ∧ docOf isAlphanumeric text = doc := by
      simpa [Corpus.docs] using isDoc
    exact ⟨(id, text), Std.ExtTreeMap.mem_toList_iff_getElem?_eq_some.mpr held, if_pos occurs⟩

theorem sorted_rows (term : String) : (texts.rows isAlphanumeric term).Pairwise (·.1 < ·.1) := by
  refine List.Pairwise.filterMap _ (fun one other isBefore => ?_)
    (Std.ExtTreeMap.ordered_keys_toList (t := texts))
  intro pair isPair otherPair isOther
  have first : pair.1 = one.1 := by
    split at isPair
    · exact (congrArg Prod.fst (Option.some.inj isPair)).symm
    · cases isPair
  have second : otherPair.1 = other.1 := by
    split at isOther
    · exact (congrArg Prod.fst (Option.some.inj isOther)).symm
    · cases isOther
  rw [first, second]
  exact Nat.compare_eq_lt.mp isBefore

theorem Agrees.rowsOf_eq (agrees : Agrees isAlphanumeric bound index texts) (term : String) :
    index.rowsOf term = texts.rows isAlphanumeric term := by
  have stores := agrees.holds.stores
  unfold rowsOf
  cases isSlot : index.terms[term]? with
  | some slot =>
    have held : (index.rowOrdered slot).Pairwise fun left right =>
        decide (left.1 < right.1) = true :=
      (stores.sorted_rowOrdered isSlot).imp decide_eq_true
    have mentioning : (texts.rows isAlphanumeric term).Pairwise fun left right =>
        decide (left.1 < right.1) = true :=
      (sorted_rows term).imp decide_eq_true
    refine Slots.eq_of_mem_iff (fun left right isBefore => ?_) held mentioning ?_
    · exact decide_eq_false (Nat.not_lt_of_gt (of_decide_eq_true isBefore))
    · rintro ⟨id, frequency⟩
      rw [stores.mem_rowOrdered isSlot, mem_rows]
  | none =>
    refine (eq_nil_iff_forall_not_mem.mpr ?_).symm
    rintro ⟨id, frequency⟩ member
    obtain ⟨doc, isDoc, occurs, -⟩ := mem_rows.mp member
    have isNamed := stores.named id doc term isDoc occurs
    rw [isSlot] at isNamed
    cases isNamed

section

variable {docs : RowId -> Option Doc} (stores : index.Stores docs)

include stores

theorem Stores.not_stale {ordinal : Nat} (isFree : ordinal ∈ index.freeDocs) (slot : Nat) :
    ∀ posting ∈ index.postingsOf slot, posting.doc ≠ ordinal := by
  intro posting member isOrdinal
  by_cases inside : slot < index.postings.length
  · rcases stores.termLeases.covered slot inside with freed | ⟨term, isSlot⟩
    · rw [stores.freeTerms slot freed] at member
      cases member
    · obtain ⟨row, doc, -, isPlace, -⟩ := stores.row_of_posting isSlot member
      exact stores.docLeases.apart row posting.doc isPlace (isOrdinal ▸ isFree)
  · rw [postingsOf, getElem?_eq_none (Nat.le_of_not_lt inside)] at member
    cases member

theorem Stores.bounded {term : String} {slot : Nat} (isSlot : index.terms[term]? = some slot) :
    ∀ posting ∈ index.postingsOf slot, posting.frequency ≤ (index.impactOf slot).maxFrequency ∧
        (index.impactOf slot).minLength ≤ index.lengthOf posting.doc := by
  intro posting member
  obtain ⟨row, doc, -, isOrdinal, isDoc, occurs, isCount⟩ := stores.row_of_posting isSlot member
  rw [isCount, stores.lengths posting.doc doc ⟨row, isOrdinal, isDoc⟩]
  exact stores.impacts term slot isSlot row doc isDoc occurs

end

end Bm25Index

end InlaySql.Bm25
