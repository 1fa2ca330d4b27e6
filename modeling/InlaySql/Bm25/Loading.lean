import InlaySql.Bm25.RoundTrip
import InlaySql.Bm25.Removal

/-!
# An index read back holds the same documents

Nothing is freed while an index is read: a term's ordinal is its place among the terms read and
a document's its place among the documents seen. Postings are sorted once a term is read, and the
lengths and the impacts come last.
-/

namespace InlaySql.Bm25.Bm25Index

open List Option Lib Sql Function

variable {index next : Bm25Index} {done : List (String × List (RowId × Nat))} {seen : List RowId}
  {id : RowId} {ordinal : Nat} {term : String} {rows : List (RowId × Nat)}

/-- The terms read so far, with their postings, and the documents seen in them. -/
structure Loaded (index : Bm25Index) (done : List (String × List (RowId × Nat)))
    (seen : List RowId) : Prop where
  ids : index.ids = seen
  nodup : seen.Nodup
  ordinals : ∀ (id : RowId) (ordinal : Nat), index.ordinals[id]? = some ordinal ↔
    seen[ordinal]? = some id
  names : (done.map Prod.fst).Nodup
  terms : ∀ (term : String) (slot : Nat), index.terms[term]? = some slot ↔
    (done.map Prod.fst)[slot]? = some term
  postings : index.postings.length = done.length
  impacts : index.impacts = List.replicate done.length .default
  lengths : index.lengths.length = seen.length
  docTerms : index.docTerms.length = seen.length
  mem : ∀ slot entry, done[slot]? = some entry -> ∀ posting, posting ∈ index.postingsOf slot ↔
    ∃ id, seen[posting.doc]? = some id ∧ (id, posting.frequency) ∈ entry.2
  distinct : ∀ slot, ((index.postingsOf slot).map Posting.doc).Nodup
  nodupTerms : ∀ ordinal, (index.termsOf ordinal).Nodup
  listed : ∀ ordinal id, seen[ordinal]? = some id -> ∀ slot, slot ∈ index.termsOf ordinal ↔
    ∃ entry, done[slot]? = some entry ∧ id ∈ entry.2.map Prod.fst
  freeTerms : index.freeTerms = []
  freeDocs : index.freeDocs = []
  known : ∀ entry ∈ done, ∀ row ∈ entry.2.map Prod.fst, row ∈ seen

/-- The terms whose postings are in order. -/
def SortedBelow (index : Bm25Index) (count : Nat) : Prop :=
  ∀ slot < count, (index.postingsOf slot).Pairwise (·.doc < ·.doc)

theorem loaded_new : Loaded new [] [] := by
  refine ⟨rfl, nodup_nil, ?_, nodup_nil, ?_, rfl, rfl, rfl, rfl, ?_, ?_, ?_, ?_, rfl,
    rfl, ?_⟩
  · simp [new]
  · simp [new]
  · simp
  · simp [new, postingsOf]
  · simp [new, termsOf]
  · simp
  · simp

theorem getElem?_append_singleton {α : Type} (items : List α) (item : α) (place : Nat) (found : α) :
    (items ++ [item])[place]? = some found ↔
      items[place]? = some found ∨ place = items.length ∧ found = item := by
  rcases Nat.lt_trichotomy place items.length with before | rfl | after
  · rw [getElem?_append_left before]
    simp [Nat.ne_of_lt before]
  · simp [eq_comm]
  · rw [getElem?_eq_none (by simp; omega), getElem?_eq_none (by omega)]
    simp
    omega

theorem Loaded.termFor (loaded : index.Loaded done seen) (fresh : term ∉ done.map Prod.fst)
    (room : done.length < 2 ^ 32) :
    ∃ next, index.termFor term = (next, done.length) ∧ next.Loaded (done ++ [(term, [])]) seen ∧
      (∀ slot, next.postingsOf slot = index.postingsOf slot) ∧ next.live = index.live ∧
      next.totalLength = index.totalLength ∧ next.lengths = index.lengths := by
  have absent : index.terms[term]? = none := by
    rw [eq_none_iff_forall_ne_some]
    intro slot isSlot
    exact fresh (mem_of_getElem? ((loaded.terms term slot).mp isSlot))
  have isOrdinal : asU32 index.postings.length = done.length := by
    rw [loaded.postings]
    exact Nat.mod_eq_of_lt room
  have taken : index.termFor term = ({ index with
      postings := index.postings ++ [[]]
      impacts := index.impacts ++ [.default]
      terms := index.terms.insert term done.length }, done.length) := by
    rw [Bm25Index.termFor, absent, loaded.freeTerms, isOrdinal]
  have postings (slot : Nat) : ((index.postings ++ [[]])[slot]?).getD [] = index.postingsOf slot :=
    getD_append_default index.postings [] slot
  refine ⟨_, taken, ?_, postings, rfl, rfl, rfl⟩
  refine ⟨loaded.ids, loaded.nodup, loaded.ordinals, ?_, ?_, ?_, ?_, loaded.lengths,
    loaded.docTerms, ?_, fun slot => ?_, loaded.nodupTerms, ?_, loaded.freeTerms,
    loaded.freeDocs, ?_⟩
  · rw [map_append, nodup_append]
    refine ⟨loaded.names, nodup_singleton term, ?_⟩
    rintro other member found isFound rfl
    have same : other = term := mem_singleton.mp isFound
    exact fresh (same ▸ member)
  · intro other slot
    have named := loaded.terms other slot
    rw [map_append, map_singleton, getElem?_append_singleton, length_map, <- named]
    change (index.terms.insert term done.length)[other]? = some slot ↔ _
    rw [Std.ExtTreeMap.getElem?_insert]
    by_cases same : term = other
    · subst same
      simp [absent, eq_comm]
    · rw [if_neg (by simpa using same)]
      simp [Ne.symm same]
  · simp [loaded.postings]
  · simp [loaded.impacts, replicate_succ']
  · intro slot entry isEntry posting
    change posting ∈ ((index.postings ++ [[]])[slot]?).getD [] ↔ _
    rw [postings]
    rcases (getElem?_append_singleton done (term, []) slot entry).mp isEntry with
      before | ⟨rfl, rfl⟩
    · exact loaded.mem slot entry before posting
    · rw [postingsOf, getElem?_eq_none loaded.postings.le]
      simp
  · change ((((index.postings ++ [[]])[slot]?).getD []).map Posting.doc).Nodup
    rw [postings]
    exact loaded.distinct slot
  · intro ordinal id isSeen slot
    refine (loaded.listed ordinal id isSeen slot).trans ?_
    constructor
    · rintro ⟨entry, isEntry, member⟩
      exact ⟨entry, (getElem?_append_singleton _ _ _ _).mpr (.inl isEntry), member⟩
    · rintro ⟨entry, isEntry, member⟩
      rcases (getElem?_append_singleton done (term, []) slot entry).mp isEntry with
        before | ⟨-, rfl⟩
      · exact ⟨entry, before, member⟩
      · cases member
  · intro entry member row isRow
    rcases mem_append.mp member with before | last
    · exact loaded.known entry before row isRow
    · rw [mem_singleton.mp last] at isRow
      cases isRow

/-- A document is seen. -/
def see (seen : List RowId) (id : RowId) : List RowId := if id ∈ seen then seen else seen ++ [id]

theorem Loaded.ordinalFor (loaded : index.Loaded done seen)
    (room : id ∉ seen -> seen.length < 2 ^ 32) :
    ∃ next ordinal, index.ordinalFor id = (next, ordinal) ∧ next.Loaded done (see seen id) ∧
      (see seen id)[ordinal]? = some id ∧ (∀ slot, next.postingsOf slot = index.postingsOf slot) ∧
      next.live = index.live ∧ next.totalLength = index.totalLength ∧
      ∀ other, next.lengthOf other = index.lengthOf other := by
  by_cases isSeen : id ∈ seen
  · obtain ⟨ordinal, inside, isId⟩ := getElem_of_mem isSeen
    have isOrdinal := (loaded.ordinals id ordinal).mpr
      (List.getElem?_eq_some_iff.mpr ⟨inside, isId⟩)
    refine ⟨index, ordinal, by rw [Bm25Index.ordinalFor, isOrdinal], ?_, ?_, fun _ => rfl, rfl, rfl,
      fun _ => rfl⟩
    · rw [see, if_pos isSeen]
      exact loaded
    · rw [see, if_pos isSeen]
      exact (loaded.ordinals id ordinal).mp isOrdinal
  · have absent : index.ordinals[id]? = none := by
      rw [eq_none_iff_forall_ne_some]
      intro ordinal isOrdinal
      exact isSeen (mem_of_getElem? ((loaded.ordinals id ordinal).mp isOrdinal))
    have isOrdinal : asU32 index.ids.length = seen.length := by
      rw [loaded.ids]
      exact Nat.mod_eq_of_lt (room isSeen)
    have taken : index.ordinalFor id = ({ index with
        ids := index.ids ++ [id]
        lengths := index.lengths ++ [0]
        docTerms := index.docTerms ++ [[]]
        ordinals := index.ordinals.insert id seen.length }, seen.length) := by
      rw [Bm25Index.ordinalFor, absent, loaded.freeDocs, isOrdinal]
    have listed (other : Nat) : ((index.docTerms ++ [[]])[other]?).getD [] = index.termsOf other :=
      getD_append_default index.docTerms [] other
    refine ⟨_, seen.length, taken, ?_, by simp [see, isSeen], fun _ => rfl, rfl, rfl,
      getD_append_default index.lengths 0⟩
    rw [see, if_neg isSeen]
    refine ⟨by simp [loaded.ids], ?_, ?_, loaded.names, loaded.terms, loaded.postings,
      loaded.impacts, by simp [loaded.lengths], by simp [loaded.docTerms], ?_,
      loaded.distinct, ?_, ?_, loaded.freeTerms, loaded.freeDocs, fun entry member row isRow =>
        mem_append_left _ (loaded.known entry member row isRow)⟩
    · rw [nodup_append]
      refine ⟨loaded.nodup, nodup_singleton id, ?_⟩
      rintro other member found isFound rfl
      exact isSeen (mem_singleton.mp isFound ▸ member)
    · intro other ordinal
      have placed := loaded.ordinals other ordinal
      rw [getElem?_append_singleton, <- placed]
      change (index.ordinals.insert id seen.length)[other]? = some ordinal ↔ _
      rw [Std.ExtTreeMap.getElem?_insert]
      by_cases same : id = other
      · subst same
        simp [absent, eq_comm]
      · rw [if_neg (by simpa using same)]
        simp [Ne.symm same]
    · intro slot entry isEntry posting
      refine (loaded.mem slot entry isEntry posting).trans ?_
      constructor
      · rintro ⟨row, isRow, member⟩
        exact ⟨row, (getElem?_append_singleton _ _ _ _).mpr (.inl isRow), member⟩
      · rintro ⟨row, isRow, member⟩
        rcases (getElem?_append_singleton seen id posting.doc row).mp isRow with
          before | ⟨-, rfl⟩
        · exact ⟨row, before, member⟩
        · exact absurd (loaded.known entry (mem_of_getElem? isEntry) row
            (List.mem_map.mpr ⟨_, member, rfl⟩)) isSeen
    · intro ordinal
      change (((index.docTerms ++ [[]])[ordinal]?).getD []).Nodup
      rw [listed]
      exact loaded.nodupTerms ordinal
    · intro ordinal row isRow slot
      change slot ∈ ((index.docTerms ++ [[]])[ordinal]?).getD [] ↔ _
      rw [listed]
      rcases (getElem?_append_singleton seen id ordinal row).mp isRow with before | ⟨rfl, rfl⟩
      · exact loaded.listed ordinal row before slot
      · rw [termsOf, getElem?_eq_none loaded.docTerms.le]
        constructor
        · intro member
          cases member
        · rintro ⟨entry, isEntry, member⟩
          exact absurd (loaded.known entry (mem_of_getElem? isEntry) row member) isSeen

theorem Loaded.pushPosting (loaded : index.Loaded (done ++ [(term, rows)]) seen)
    (isSeen : seen[ordinal]? = some id) (fresh : id ∉ rows.map Prod.fst) (frequency : Nat) :
    (index.pushPosting done.length ⟨ordinal, frequency⟩).Loaded
        (done ++ [(term, rows ++ [(id, frequency)])]) seen ∧
      ∀ slot ≠ done.length, (index.pushPosting done.length ⟨ordinal, frequency⟩).postingsOf slot =
        index.postingsOf slot := by
  have isLast : (done ++ [(term, rows)])[done.length]? = some (term, rows) := by simp
  have inside : ordinal < index.docTerms.length := by
    rw [loaded.docTerms]
    exact (List.getElem?_eq_some_iff.mp isSeen).1
  have pushed (slot : Nat) : (index.pushPosting done.length ⟨ordinal, frequency⟩).postingsOf slot =
        if slot = done.length then index.postingsOf done.length ++ [⟨ordinal, frequency⟩]
        else index.postingsOf slot :=
    getD_modify index.postings done.length slot _ [] (by simp [loaded.postings])
  have listed (other : Nat) : (index.pushPosting done.length ⟨ordinal, frequency⟩).termsOf other =
      if other = ordinal then index.termsOf ordinal ++ [done.length] else index.termsOf other :=
    getD_modify index.docTerms ordinal other _ [] inside
  have place (one other : Nat) (isOne : seen[one]? = some id) (isOther : seen[other]? = some id) :
      one = other :=
    (getElem?_inj (List.getElem?_eq_some_iff.mp isOne).1 loaded.nodup).mp (isOne.trans isOther.symm)
  have sameNames : (done ++ [(term, rows ++ [(id, frequency)])]).map Prod.fst =
      (done ++ [(term, rows)]).map Prod.fst := by simp
  refine ⟨⟨loaded.ids, loaded.nodup, loaded.ordinals, ?_, ?_, ?_, ?_, loaded.lengths, ?_, ?_, ?_, ?_,
    ?_, loaded.freeTerms, loaded.freeDocs, ?_⟩, fun slot differs => by rw [pushed, if_neg differs]⟩
  · rw [sameNames]
    exact loaded.names
  · rw [sameNames]
    exact loaded.terms
  · simpa [Bm25Index.pushPosting] using loaded.postings
  · simpa [Bm25Index.pushPosting] using loaded.impacts
  · simpa [Bm25Index.pushPosting] using loaded.docTerms
  · intro slot entry isEntry posting
    rw [pushed]
    rcases (getElem?_append_singleton done _ slot entry).mp isEntry with before | ⟨rfl, rfl⟩
    · have differs : slot ≠ done.length := Nat.ne_of_lt (List.getElem?_eq_some_iff.mp before).1
      rw [if_neg differs]
      exact loaded.mem slot entry ((getElem?_append_singleton _ _ _ _).mpr (.inl before)) posting
    · rw [if_pos rfl, mem_append, mem_singleton, loaded.mem _ _ isLast]
      constructor
      · rintro (⟨row, isRow, member⟩ | rfl)
        · exact ⟨row, isRow, mem_append_left _ member⟩
        · exact ⟨id, isSeen, by simp⟩
      · rintro ⟨row, isRow, member⟩
        rcases mem_append.mp member with before | last
        · exact .inl ⟨row, isRow, before⟩
        · obtain ⟨rfl, isFrequency⟩ := Prod.mk.inj (mem_singleton.mp last)
          exact .inr (congrArg₂ Posting.mk (place _ _ isRow isSeen) isFrequency)
  · intro slot
    rw [pushed]
    split
    · rw [map_append, nodup_append]
      refine ⟨loaded.distinct done.length, nodup_singleton _, ?_⟩
      rintro doc isDoc other isOther rfl
      obtain ⟨posting, member, isPlace⟩ := List.mem_map.mp isDoc
      obtain ⟨row, isRow, isPair⟩ := (loaded.mem _ _ isLast posting).mp member
      have same : doc = ordinal := mem_singleton.mp isOther
      rw [isPlace, same] at isRow
      obtain rfl := Option.some.inj (isRow.symm.trans isSeen)
      exact fresh (List.mem_map.mpr ⟨_, isPair, rfl⟩)
    · exact loaded.distinct slot
  · intro other
    rw [listed]
    split
    · rw [nodup_append]
      refine ⟨loaded.nodupTerms ordinal, nodup_singleton _, ?_⟩
      rintro slot member found isFound rfl
      rw [mem_singleton.mp isFound] at member
      obtain ⟨entry, isEntry, mentioned⟩ := (loaded.listed ordinal id isSeen _).mp member
      rw [isLast] at isEntry
      cases isEntry
      exact fresh mentioned
    · exact loaded.nodupTerms other
  · intro other row isRow slot
    have before := loaded.listed other row isRow slot
    rw [listed]
    have isEntry (entry : String × List (RowId × Nat)) :
        (done ++ [(term, rows ++ [(id, frequency)])])[slot]? = some entry ↔
          done[slot]? = some entry ∨
            slot = done.length ∧ entry = (term, rows ++ [(id, frequency)]) :=
      getElem?_append_singleton _ _ _ _
    simp only [getElem?_append_singleton, or_and_right, exists_or, and_assoc] at before
    simp only [isEntry, or_and_right, exists_or, and_assoc]
    by_cases same : other = ordinal
    · subst same
      obtain rfl := Option.some.inj (isRow.symm.trans isSeen)
      have last : row ∈ (rows ++ [(row, frequency)]).map Prod.fst := by simp
      rw [if_pos rfl, mem_append, mem_singleton, before]
      constructor
      · rintro ((earlier | ⟨_, isLast, rfl, -⟩) | isLast)
        · exact .inl earlier
        · exact .inr ⟨_, isLast, rfl, last⟩
        · exact .inr ⟨_, isLast, rfl, last⟩
      · rintro (earlier | ⟨_, isLast, rfl, -⟩)
        · exact .inl (.inl earlier)
        · exact .inr isLast
    · have differs : row ≠ id := by
        rintro rfl
        exact same (place _ _ isRow isSeen)
      rw [if_neg same, before]
      simp [differs]
  · intro entry member row isRow
    rcases mem_append.mp member with before | last
    · exact loaded.known entry (mem_append_left _ before) row isRow
    · rw [mem_singleton.mp last, map_append] at isRow
      rcases mem_append.mp isRow with before | last
      · exact loaded.known _ (mem_of_getElem? isLast) row before
      · rw [mem_singleton.mp last]
        exact mem_of_getElem? isSeen

/-! ## A whole term is read -/

/-- No document has been measured yet. -/
def Bare (index : Bm25Index) : Prop :=
  index.live = 0 ∧ index.totalLength = 0 ∧ ∀ ordinal, index.lengthOf ordinal = 0

variable {docs : Finset RowId}

theorem room_of_inside (nodup : seen.Nodup) (few : docs.card ≤ 2 ^ 32)
    (inside : ∀ row ∈ seen, row ∈ docs) (member : id ∈ docs) (isNew : id ∉ seen) :
    seen.length < 2 ^ 32 := by
  have subset : seen.toFinset ⊆ docs.erase id := by
    intro row isRow
    have isSeen := List.mem_toFinset.mp isRow
    exact Finset.mem_erase.mpr ⟨fun same => isNew (same ▸ isSeen), inside row isSeen⟩
  have smaller := (Finset.card_le_card subset).trans_lt (Finset.card_erase_lt_of_mem member)
  rw [toFinset_card_of_nodup nodup] at smaller
  exact smaller.trans_le few

theorem inside_see (inside : ∀ row ∈ seen, row ∈ docs) (member : id ∈ docs) :
    ∀ row ∈ see seen id, row ∈ docs := by
  intro row isSeen
  unfold see at isSeen
  split at isSeen
  · exact inside row isSeen
  · rcases mem_append.mp isSeen with before | last
    · exact inside row before
    · rw [mem_singleton.mp last]
      exact member

theorem Loaded.foldl_loadPosting (loaded : index.Loaded (done ++ [(term, rows)]) seen)
    (bare : index.Bare) (few : docs.card ≤ 2 ^ 32) (inside : ∀ row ∈ seen, row ∈ docs)
    (more : List (RowId × Nat)) (nodup : ((rows ++ more).map Prod.fst).Nodup)
    (members : ∀ pair ∈ more, pair.1 ∈ docs) :
    ∃ seenNext, (more.foldl (loadPosting done.length) index).Loaded
        (done ++ [(term, rows ++ more)]) seenNext ∧
      (more.foldl (loadPosting done.length) index).Bare ∧ (∀ row ∈ seenNext, row ∈ docs) ∧
      ∀ slot ≠ done.length, (more.foldl (loadPosting done.length) index).postingsOf slot =
        index.postingsOf slot := by
  induction more generalizing index seen rows with
  | nil =>
    rw [append_nil]
    exact ⟨seen, loaded, bare, inside, fun _ _ => rfl⟩
  | cons pair more ih =>
    obtain ⟨id, frequency⟩ := pair
    have member : id ∈ docs := members (id, frequency) mem_cons_self
    have fresh : id ∉ rows.map Prod.fst := by
      intro before
      rw [map_append, nodup_append] at nodup
      exact nodup.2.2 id before id (by simp) rfl
    obtain ⟨next, ordinal, taken, loadedNext, isSeen, samePostings, live, total, lengths⟩ :=
      loaded.ordinalFor (room_of_inside loaded.nodup few inside member)
    obtain ⟨pushed, others⟩ := loadedNext.pushPosting isSeen fresh frequency
    have step : loadPosting done.length index (id, frequency) =
        next.pushPosting done.length ⟨ordinal, frequency⟩ := by
      unfold loadPosting
      rw [taken]
    have bareNext : (next.pushPosting done.length ⟨ordinal, frequency⟩).Bare :=
      ⟨live.trans bare.1, total.trans bare.2.1, fun other => (lengths other).trans (bare.2.2 other)⟩
    obtain ⟨seenNext, loadedLast, bareLast, insideLast, same⟩ := ih pushed bareNext
      (inside_see inside member) (by simpa using nodup)
      fun other isOther => members other (mem_cons_of_mem _ isOther)
    rw [append_assoc, singleton_append] at loadedLast
    rw [foldl_cons, step]
    refine ⟨seenNext, loadedLast, bareLast, insideLast, fun slot differs => ?_⟩
    rw [same slot differs, others slot differs, samePostings]

theorem Loaded.sortPostings (loaded : index.Loaded done seen) (slot : Nat)
    (inside : slot < done.length) :
    (index.sortPostings slot).Loaded done seen ∧
      (∀ other ≠ slot, (index.sortPostings slot).postingsOf other = index.postingsOf other) ∧
      ((index.sortPostings slot).postingsOf slot).Pairwise (·.doc < ·.doc) := by
  have sorted (other : Nat) : (index.sortPostings slot).postingsOf other =
      if other = slot then
        (index.postingsOf slot).mergeSort fun left right => decide (left.doc ≤ right.doc)
      else index.postingsOf other :=
    getD_modify index.postings slot other _ [] (loaded.postings ▸ inside)
  refine ⟨⟨loaded.ids, loaded.nodup, loaded.ordinals, loaded.names, loaded.terms, ?_, ?_,
    loaded.lengths, loaded.docTerms, ?_, fun other => ?_, loaded.nodupTerms, loaded.listed,
    loaded.freeTerms, loaded.freeDocs, loaded.known⟩,
    fun other differs => by rw [sorted, if_neg differs], ?_⟩
  · simpa [Bm25Index.sortPostings] using loaded.postings
  · exact loaded.impacts
  · intro other entry isEntry posting
    rw [sorted]
    split
    · rename_i same
      rw [mem_mergeSort, <- same]
      exact loaded.mem other entry isEntry posting
    · exact loaded.mem other entry isEntry posting
  · rw [sorted]
    split
    · exact ((mergeSort_perm _ _).map Posting.doc).nodup_iff.mpr (loaded.distinct slot)
    · exact loaded.distinct other
  · rw [sorted, if_pos rfl]
    exact Slots.pairwise_mergeSort (loaded.distinct slot)

theorem Loaded.loadTerm (loaded : index.Loaded done seen) (bare : index.Bare)
    (sorted : index.SortedBelow done.length) (few : docs.card ≤ 2 ^ 32)
    (inside : ∀ row ∈ seen, row ∈ docs) (fresh : term ∉ done.map Prod.fst)
    (room : done.length < 2 ^ 32) (nodup : (rows.map Prod.fst).Nodup)
    (members : ∀ pair ∈ rows, pair.1 ∈ docs) :
    ∃ seenNext, (index.loadTerm (term, rows)).Loaded (done ++ [(term, rows)]) seenNext ∧
      (index.loadTerm (term, rows)).Bare ∧
      (index.loadTerm (term, rows)).SortedBelow (done ++ [(term, rows)]).length ∧
      ∀ row ∈ seenNext, row ∈ docs := by
  obtain ⟨named, taken, loadedNamed, samePostings, live, total, lengths⟩ :=
    loaded.termFor fresh room
  have bareNamed : named.Bare := by
    refine ⟨live.trans bare.1, total.trans bare.2.1, fun ordinal => ?_⟩
    rw [lengthOf, lengths]
    exact bare.2.2 ordinal
  obtain ⟨seenNext, loadedLast, bareLast, insideLast, others⟩ := loadedNamed.foldl_loadPosting
    bareNamed few inside rows nodup members
  obtain ⟨loadedSorted, same, sortedLast⟩ :=
    loadedLast.sortPostings done.length (by simp)
  have step : index.loadTerm (term, rows) =
      (rows.foldl (loadPosting done.length) named).sortPostings done.length := by
    unfold Bm25Index.loadTerm
    simp only [taken]
  rw [step]
  refine ⟨seenNext, loadedSorted, bareLast, fun slot below => ?_, insideLast⟩
  by_cases isLast : slot = done.length
  · rw [isLast]
    exact sortedLast
  · rw [same slot isLast, others slot isLast, samePostings]
    refine sorted slot ?_
    rw [length_append, length_singleton] at below
    omega

/-- Terms that can be read: of different names, and each with every document once. -/
structure Readable (contents : List (String × List (RowId × Nat))) (docs : Finset RowId) : Prop where
  names : (contents.map Prod.fst).Nodup
  few : contents.length ≤ 2 ^ 32
  nodup : ∀ entry ∈ contents, (entry.2.map Prod.fst).Nodup
  members : ∀ entry ∈ contents, ∀ pair ∈ entry.2, pair.1 ∈ docs

theorem loaded_contents {contents : List (String × List (RowId × Nat))} (few : docs.card ≤ 2 ^ 32)
    (readable : Readable contents docs) :
    ∃ seen, (contents.foldl loadTerm new).Loaded contents seen ∧
      (contents.foldl loadTerm new).Bare ∧
      (contents.foldl loadTerm new).SortedBelow contents.length ∧ ∀ row ∈ seen, row ∈ docs := by
  have general (done rest : List (String × List (RowId × Nat))) (split : contents = done ++ rest)
      (index : Bm25Index) (seen : List RowId) (loaded : index.Loaded done seen)
      (bare : index.Bare) (sorted : index.SortedBelow done.length)
      (inside : ∀ row ∈ seen, row ∈ docs) :
      ∃ seenNext, (rest.foldl loadTerm index).Loaded contents seenNext ∧
        (rest.foldl loadTerm index).Bare ∧
        (rest.foldl loadTerm index).SortedBelow contents.length ∧
        ∀ row ∈ seenNext, row ∈ docs := by
    induction rest generalizing done index seen with
    | nil =>
      rw [append_nil] at split
      rw [split]
      exact ⟨seen, loaded, bare, sorted, inside⟩
    | cons entry rest ih =>
      obtain ⟨term, rows⟩ := entry
      have member : (term, rows) ∈ contents := by simp [split]
      have names := readable.names
      rw [split, map_append, nodup_append] at names
      have fresh : term ∉ done.map Prod.fst := fun before =>
        names.2.2 term before term (by simp) rfl
      have room : done.length < 2 ^ 32 := by
        have total := readable.few
        rw [split, length_append, length_cons] at total
        omega
      obtain ⟨seenNext, loadedNext, bareNext, sortedNext, insideNext⟩ := loaded.loadTerm bare
        sorted few inside fresh room (readable.nodup _ member) (readable.members _ member)
      exact ih (done ++ [(term, rows)]) (by simp [split]) _ seenNext loadedNext bareNext
        sortedNext insideNext
  exact general [] contents rfl new [] loaded_new ⟨rfl, rfl, by simp [new, lengthOf]⟩
    (fun slot below => absurd below (Nat.not_lt_zero slot)) (by simp)

/-! ## The documents are read -/

/-- The documents measured so far. -/
structure Measured (index : Bm25Index) (seen : List RowId) (measured : List (RowId × Nat)) :
    Prop where
  lengths : ∀ pair ∈ measured, ∃ ordinal, seen[ordinal]? = some pair.1 ∧
    index.lengthOf ordinal = pair.2
  live : index.live = measured.length
  total : index.totalLength = (measured.map Prod.snd).sum

theorem Loaded.loadDoc {measured : List (RowId × Nat)} (loaded : index.Loaded done seen)
    (isMeasured : index.Measured seen measured) (few : docs.card ≤ 2 ^ 32)
    (inside : ∀ row ∈ seen, row ∈ docs) (member : id ∈ docs) (fresh : id ∉ measured.map Prod.fst)
    (length : Nat) :
    (index.loadDoc (id, length)).Loaded done (see seen id) ∧
      (index.loadDoc (id, length)).Measured (see seen id) (measured ++ [(id, length)]) ∧
      ∀ slot, (index.loadDoc (id, length)).postingsOf slot = index.postingsOf slot := by
  obtain ⟨next, ordinal, taken, loadedNext, isSeen, samePostings, live, total, lengths⟩ :=
    loaded.ordinalFor (room_of_inside loaded.nodup few inside member)
  have step : index.loadDoc (id, length) = { next with
      lengths := next.lengths.set ordinal length
      live := next.live + 1
      totalLength := next.totalLength + length } := by
    unfold Bm25Index.loadDoc
    rw [taken]
  have below : ordinal < next.lengths.length := by
    rw [loadedNext.lengths]
    exact (List.getElem?_eq_some_iff.mp isSeen).1
  have set (other : Nat) : ((next.lengths.set ordinal length)[other]?).getD 0 =
      if other = ordinal then length else index.lengthOf other := by
    rw [getD_set next.lengths ordinal other length 0 below]
    split
    · rfl
    · exact lengths other
  rw [step]
  refine ⟨⟨loadedNext.ids, loadedNext.nodup, loadedNext.ordinals, loadedNext.names,
    loadedNext.terms, loadedNext.postings, loadedNext.impacts, by simpa using loadedNext.lengths,
    loadedNext.docTerms, loadedNext.mem, loadedNext.distinct, loadedNext.nodupTerms,
    loadedNext.listed, loadedNext.freeTerms, loadedNext.freeDocs, loadedNext.known⟩,
    ⟨fun pair isPair => ?_, ?_, ?_⟩, samePostings⟩
  · rcases mem_append.mp isPair with before | last
    · obtain ⟨place, isPlace, isLength⟩ := isMeasured.lengths pair before
      have isPlaceNext : (see seen id)[place]? = some pair.1 := by
        unfold see
        split
        · exact isPlace
        · exact (getElem?_append_singleton _ _ _ _).mpr (.inl isPlace)
      refine ⟨place, isPlaceNext, ?_⟩
      have differs : place ≠ ordinal := by
        rintro rfl
        have same := Option.some.inj (isPlaceNext.symm.trans isSeen)
        exact fresh (List.mem_map.mpr ⟨pair, before, same⟩)
      exact (set place).trans ((if_neg differs).trans isLength)
    · rw [mem_singleton.mp last]
      exact ⟨ordinal, isSeen, (set ordinal).trans (if_pos rfl)⟩
  · simp [live, isMeasured.live]
  · simp [total, isMeasured.total]

theorem Loaded.foldl_loadDoc (few : docs.card ≤ 2 ^ 32) (measured rest : List (RowId × Nat))
    (loaded : index.Loaded done seen) (isMeasured : index.Measured seen measured)
    (inside : ∀ row ∈ seen, row ∈ docs) (nodup : ((measured ++ rest).map Prod.fst).Nodup)
    (members : ∀ pair ∈ rest, pair.1 ∈ docs) :
    ∃ seenNext, (rest.foldl Bm25Index.loadDoc index).Loaded done seenNext ∧
      (rest.foldl Bm25Index.loadDoc index).Measured seenNext (measured ++ rest) ∧
      (∀ row ∈ seenNext, row ∈ docs) ∧
      ∀ slot, (rest.foldl Bm25Index.loadDoc index).postingsOf slot = index.postingsOf slot := by
  induction rest generalizing index seen measured with
  | nil =>
    rw [append_nil]
    exact ⟨seen, loaded, isMeasured, inside, fun _ => rfl⟩
  | cons pair rest ih =>
    obtain ⟨id, length⟩ := pair
    have member : id ∈ docs := members (id, length) mem_cons_self
    have fresh : id ∉ measured.map Prod.fst := by
      intro before
      rw [map_append, nodup_append] at nodup
      exact nodup.2.2 id before id (by simp) rfl
    obtain ⟨loadedNext, measuredNext, same⟩ :=
      loaded.loadDoc isMeasured few inside member fresh length
    obtain ⟨seenNext, loadedLast, measuredLast, insideLast, sameLast⟩ :=
      ih (measured ++ [(id, length)]) loadedNext measuredNext (inside_see inside member)
        (by simpa using nodup) fun other isOther => members other (mem_cons_of_mem _ isOther)
    rw [append_assoc, singleton_append] at measuredLast
    exact ⟨seenNext, loadedLast, measuredLast, insideLast,
      fun slot => (sameLast slot).trans (same slot)⟩

/-! ## The index read holds the documents -/

theorem foldl_widen_bounds (postings : List Posting) (length : Nat -> Nat) (impact : Impact) :
    impact.maxFrequency ≤ (postings.foldl (fun impact posting =>
        impact.widen posting.frequency (length posting.doc)) impact).maxFrequency ∧
      (postings.foldl (fun impact posting =>
        impact.widen posting.frequency (length posting.doc)) impact).minLength ≤ impact.minLength ∧
      ∀ posting ∈ postings, posting.frequency ≤ (postings.foldl (fun impact posting =>
          impact.widen posting.frequency (length posting.doc)) impact).maxFrequency ∧
        (postings.foldl (fun impact posting =>
          impact.widen posting.frequency (length posting.doc)) impact).minLength ≤
            length posting.doc := by
  induction postings generalizing impact with
  | nil => simp
  | cons posting postings ih =>
    obtain ⟨rises, falls, each⟩ := ih (impact.widen posting.frequency (length posting.doc))
    refine ⟨(Nat.le_max_left _ _).trans rises, falls.trans (Nat.min_le_left _ _), ?_⟩
    intro other member
    rcases mem_cons.mp member with rfl | later
    · exact ⟨(Nat.le_max_right _ _).trans rises, falls.trans (Nat.min_le_right _ _)⟩
    · exact each other later

/-- Terms and documents that are those of a set of documents. -/
structure Describes (contents : List (String × List (RowId × Nat))) (measures : List (RowId × Nat))
    (docs : RowId -> Option Doc) : Prop where
  names : (contents.map Prod.fst).Nodup
  nodup : ∀ entry ∈ contents, (entry.2.map Prod.fst).Nodup
  nonempty : ∀ entry ∈ contents, entry.2 ≠ []
  mem : ∀ entry ∈ contents, ∀ id frequency, (id, frequency) ∈ entry.2 ↔
    ∃ doc, docs id = some doc ∧ 0 < doc.count entry.1 ∧ frequency = doc.count entry.1
  named : ∀ id doc term, docs id = some doc -> 0 < doc.count term -> term ∈ contents.map Prod.fst
  measured : (measures.map Prod.fst).Nodup
  length : ∀ id length, (id, length) ∈ measures ↔ ∃ doc, docs id = some doc ∧ length = doc.length

section Described

variable {contents : List (String × List (RowId × Nat))} {measures : List (RowId × Nat)}
  {docs : RowId -> Option Doc}

theorem Loaded.entry (loaded : index.Loaded contents seen) {slot : Nat}
    (isSlot : index.terms[term]? = some slot) : ∃ rows, contents[slot]? = some (term, rows) := by
  have isName := (loaded.terms term slot).mp isSlot
  rw [getElem?_map, map_eq_some_iff] at isName
  obtain ⟨⟨_, rows⟩, isEntry, rfl⟩ := isName
  exact ⟨rows, isEntry⟩

theorem Measured.place (measured : index.Measured seen measures)
    (describes : Describes contents measures docs) {doc : Doc} (isDoc : docs id = some doc) :
    ∃ ordinal, seen[ordinal]? = some id ∧ index.lengthOf ordinal = doc.length :=
  measured.lengths _ ((describes.length id doc.length).mpr ⟨doc, isDoc, rfl⟩)

section

variable (loaded : index.Loaded contents seen)

include loaded

theorem Loaded.mem_postings (describes : Describes contents measures docs) {slot : Nat}
    (isSlot : index.terms[term]? = some slot) (posting : Posting) :
    posting ∈ index.postingsOf slot ↔ ∃ doc, index.Places docs posting.doc doc ∧
      0 < doc.count term ∧ posting.frequency = doc.count term := by
  obtain ⟨rows, isEntry⟩ := loaded.entry isSlot
  have isRow := describes.mem _ (mem_of_getElem? isEntry)
  rw [loaded.mem slot _ isEntry]
  constructor
  · rintro ⟨id, isSeen, isPair⟩
    obtain ⟨doc, isDoc, occurs, isFrequency⟩ := (isRow id posting.frequency).mp isPair
    exact ⟨doc, ⟨id, (loaded.ordinals id posting.doc).mpr isSeen, isDoc⟩, occurs, isFrequency⟩
  · rintro ⟨doc, ⟨id, isOrdinal, isDoc⟩, occurs, isFrequency⟩
    exact ⟨id, (loaded.ordinals id posting.doc).mp isOrdinal,
      (isRow id posting.frequency).mpr ⟨doc, isDoc, occurs, isFrequency⟩⟩

theorem Loaded.stores (measured : index.Measured seen measures)
    (sorted : index.SortedBelow contents.length) (describes : Describes contents measures docs)
    (inside : ∀ row ∈ seen, (docs row).isSome) :
    index.widenAll.Stores docs := by
  have slot_lt (term : String) (slot : Nat) (isSlot : index.terms[term]? = some slot) :
      slot < contents.length := by
    obtain ⟨rows, isEntry⟩ := loaded.entry isSlot
    exact (List.getElem?_eq_some_iff.mp isEntry).1
  have once {items : List String} (nodup : items.Nodup) {one other : Nat} {item : String}
      (isOne : items[one]? = some item) (isOther : items[other]? = some item) : one = other :=
    (getElem?_inj (List.getElem?_eq_some_iff.mp isOne).1 nodup).mp (isOne.trans isOther.symm)
  refine {
    docLeases := ?_, termLeases := ?_, impactsLength := ?_, lengthsLength := ?_,
    docTermsLength := ?_, present := ?_, named := ?_, ids := ?_, lengths := ?_, sorted := ?_,
    postings := fun term slot => loaded.mem_postings describes, impacts := ?_, freeTerms := ?_,
    freeDocs := ?_ }
  · change Leased (fun id : RowId => index.ordinals[id]?) index.freeDocs index.ids.length
    rw [loaded.freeDocs, loaded.ids]
    refine ⟨fun id place isPlace => ?_, fun one other place isOne isOther => ?_, nodup_nil,
      by simp, by simp, fun place below => .inr ⟨seen[place], ?_⟩⟩
    · exact (List.getElem?_eq_some_iff.mp ((loaded.ordinals id place).mp isPlace)).1
    · exact Option.some.inj (((loaded.ordinals one place).mp isOne).symm.trans
        ((loaded.ordinals other place).mp isOther))
    · exact (loaded.ordinals _ place).mpr (getElem?_eq_getElem below)
  · change Leased (fun term : String => index.terms[term]?) index.freeTerms index.postings.length
    rw [loaded.freeTerms, loaded.postings]
    refine ⟨slot_lt, fun one other slot isOne isOther => ?_, nodup_nil, by simp, by simp,
      fun slot below => .inr ⟨contents[slot].1, ?_⟩⟩
    · exact Option.some.inj (((loaded.terms one slot).mp isOne).symm.trans
        ((loaded.terms other slot).mp isOther))
    · refine (loaded.terms _ slot).mpr ?_
      rw [getElem?_map, getElem?_eq_getElem below]
      rfl
  · simp [widenAll, loaded.impacts, loaded.postings]
  · exact loaded.lengths.trans (congrArg List.length loaded.ids.symm)
  · exact loaded.docTerms.trans (congrArg List.length loaded.ids.symm)
  · intro id
    rw [Bool.eq_iff_iff, isSome_iff_exists]
    constructor
    · rintro ⟨ordinal, isOrdinal⟩
      exact inside id (mem_of_getElem? ((loaded.ordinals id ordinal).mp isOrdinal))
    · intro isPresent
      obtain ⟨doc, isDoc⟩ := isSome_iff_exists.mp isPresent
      obtain ⟨ordinal, isSeen, -⟩ := measured.place describes isDoc
      exact ⟨ordinal, (loaded.ordinals id ordinal).mpr isSeen⟩
  · intro id doc term isDoc occurs
    obtain ⟨slot, below, isName⟩ := getElem_of_mem (describes.named id doc term isDoc occurs)
    exact isSome_iff_exists.mpr ⟨slot, (loaded.terms term slot).mpr
      (List.getElem?_eq_some_iff.mpr ⟨below, isName⟩)⟩
  · intro id ordinal isOrdinal
    change index.ids[ordinal]? = some id
    rw [loaded.ids]
    exact (loaded.ordinals id ordinal).mp isOrdinal
  · rintro ordinal doc ⟨id, isOrdinal, isDoc⟩
    obtain ⟨place, isSeen, isLength⟩ := measured.place describes isDoc
    have isPlace := (loaded.ordinals id place).mpr isSeen
    rw [<- Option.some.inj (isPlace.symm.trans isOrdinal)]
    exact isLength
  · exact fun term slot isSlot => sorted slot (slot_lt term slot isSlot)
  · intro term slot isSlot id doc isDoc occurs
    obtain ⟨place, isSeen, isLength⟩ := measured.place describes isDoc
    have isPlace := (loaded.ordinals id place).mpr isSeen
    have isPosting := (loaded.mem_postings describes isSlot ⟨place, doc.count term⟩).mpr
      ⟨doc, ⟨id, isPlace, isDoc⟩, occurs, rfl⟩
    have below := slot_lt term slot isSlot
    have widened : index.widenAll.impactOf slot = (index.postingsOf slot).foldl
        (fun impact posting => impact.widen posting.frequency (index.lengthOf posting.doc))
        .default := by
      have inPostings : slot < index.postings.length := loaded.postings ▸ below
      simp [widenAll, impactOf, postingsOf, getElem?_zipWith, loaded.impacts, below,
        getElem?_eq_getElem inPostings]
    obtain ⟨-, -, each⟩ := foldl_widen_bounds (index.postingsOf slot) index.lengthOf .default
    rw [widened, <- isLength]
    exact each _ isPosting
  · intro slot member
    rw [show index.widenAll.freeTerms = [] from loaded.freeTerms] at member
    cases member
  · intro ordinal member
    rw [show index.widenAll.freeDocs = [] from loaded.freeDocs] at member
    cases member

theorem Loaded.lists (describes : Describes contents measures docs) :
    index.widenAll.Lists docs := by
  refine ⟨loaded.nodupTerms, ?_, ?_⟩
  · rintro ordinal doc ⟨id, isOrdinal, isDoc⟩ slot
    have isSeen := (loaded.ordinals id ordinal).mp isOrdinal
    refine (loaded.listed ordinal id isSeen slot).trans ?_
    constructor
    · rintro ⟨⟨term, rows⟩, isEntry, isRow⟩
      obtain ⟨⟨_, frequency⟩, isPair, rfl⟩ := List.mem_map.mp isRow
      obtain ⟨other, isOther, occurs, -⟩ :=
        (describes.mem _ (mem_of_getElem? isEntry) _ frequency).mp isPair
      obtain rfl := Option.some.inj (isDoc.symm.trans isOther)
      refine ⟨term, (loaded.terms term slot).mpr ?_, occurs⟩
      rw [getElem?_map, isEntry]
      rfl
    · rintro ⟨term, isSlot, occurs⟩
      obtain ⟨rows, isEntry⟩ := loaded.entry isSlot
      exact ⟨_, isEntry, List.mem_map.mpr ⟨(id, doc.count term),
        (describes.mem _ (mem_of_getElem? isEntry) id _).mpr ⟨doc, isDoc, occurs, rfl⟩, rfl⟩⟩
  · intro ordinal member
    rw [show index.widenAll.freeDocs = [] from loaded.freeDocs] at member
    cases member

theorem Loaded.tight (stores : index.widenAll.Stores docs)
    (describes : Describes contents measures docs) :
    index.widenAll.Tight := by
  intro term slot isSlot
  obtain ⟨rows, isEntry⟩ := loaded.entry isSlot
  have member := mem_of_getElem? isEntry
  obtain ⟨⟨id, frequency⟩, isPair⟩ := exists_mem_of_ne_nil _ (describes.nonempty _ member)
  obtain ⟨doc, isDoc, occurs, -⟩ := (describes.mem _ member id frequency).mp isPair
  exact (stores.mentioned_iff isSlot).mpr ⟨id, doc, isDoc, occurs⟩

end

theorem holds_loaded (describes : Describes contents measures docs)
    (fewTerms : contents.length ≤ 2 ^ 32) (fewDocs : measures.length ≤ 2 ^ 32) :
    (loaded contents measures).Holds docs ∧ (loaded contents measures).live = measures.length ∧
      (loaded contents measures).totalLength = (measures.map Prod.snd).sum ∧
      (loaded contents measures).ids.length ≤ measures.length := by
  have member (id : RowId) : id ∈ (measures.map Prod.fst).toFinset ↔ (docs id).isSome := by
    rw [List.mem_toFinset, isSome_iff_exists]
    constructor
    · intro isRow
      obtain ⟨⟨row, length⟩, isPair, rfl⟩ := List.mem_map.mp isRow
      obtain ⟨doc, isDoc, -⟩ := (describes.length row length).mp isPair
      exact ⟨doc, isDoc⟩
    · rintro ⟨doc, isDoc⟩
      exact List.mem_map.mpr ⟨_, (describes.length id doc.length).mpr ⟨doc, isDoc, rfl⟩, rfl⟩
  have few : (measures.map Prod.fst).toFinset.card ≤ 2 ^ 32 := by
    rw [toFinset_card_of_nodup describes.measured, length_map]
    exact fewDocs
  have readable : Readable contents (measures.map Prod.fst).toFinset := by
    refine ⟨describes.names, fewTerms, describes.nodup, fun entry isEntry pair isPair => ?_⟩
    obtain ⟨doc, isDoc, -⟩ := (describes.mem entry isEntry pair.1 pair.2).mp isPair
    rw [member, isDoc]
    rfl
  obtain ⟨seen, loadedTerms, bare, sorted, inside⟩ := loaded_contents few readable
  obtain ⟨seenAll, loadedAll, measured, insideAll, same⟩ := loadedTerms.foldl_loadDoc few [] measures
    ⟨by simp, bare.1, bare.2.1⟩ inside describes.measured
    fun pair isPair => List.mem_toFinset.mpr (List.mem_map.mpr ⟨pair, isPair, rfl⟩)
  rw [nil_append] at measured
  have sortedAll : SortedBelow (measures.foldl loadDoc (contents.foldl loadTerm new))
      contents.length := by
    intro slot below
    rw [same]
    exact sorted slot below
  have stores := loadedAll.stores measured sortedAll describes
    fun row isRow => (member row).mp (insideAll row isRow)
  refine ⟨⟨stores, loadedAll.lists describes, loadedAll.tight stores describes⟩, measured.live,
    measured.total, ?_⟩
  change (measures.foldl loadDoc (contents.foldl loadTerm new)).ids.length ≤ _
  rw [loadedAll.ids, <- toFinset_card_of_nodup loadedAll.nodup,
    <- length_map (f := Prod.fst), <- toFinset_card_of_nodup describes.measured]
  exact Finset.card_le_card fun row isRow => insideAll row (List.mem_toFinset.mp isRow)

end Described

end InlaySql.Bm25.Bm25Index
