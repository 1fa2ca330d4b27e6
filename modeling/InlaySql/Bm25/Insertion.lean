import InlaySql.Bm25.Removal

/-!
# An insertion

The document that stood there is removed, the tokens of the text are counted under their terms'
ordinals, the document gets an ordinal and is entered under each term it mentions.
-/

namespace InlaySql.Bm25.Bm25Index

open List Lib Sql Function

variable {index next : Bm25Index} {docs : RowId -> Option Doc} {id : RowId} {ordinal : Nat}
  {doc : Doc}

theorem Lists.named {terms : List String} (lists : index.Lists docs) (stores : index.Stores docs)
    (names : Names index next terms) : next.Lists docs := by
  have places := names.sameDocs.places docs
  obtain ⟨-, -, -, docTerms, freeDocs, -, -⟩ := names.sameDocs
  refine ⟨fun place => ?_, fun place other isPlaced found => ?_, fun place member => ?_⟩
  · rw [termsOf, docTerms]
    exact lists.nodup place
  · rw [places] at isPlaced
    rw [termsOf, docTerms]
    refine (lists.mem place other isPlaced found).trans ?_
    refine exists_congr fun term => and_congr_left fun mentions => ?_
    obtain ⟨row, -, isOther⟩ := isPlaced
    obtain ⟨slot, isSlot⟩ := Option.isSome_iff_exists.mp (stores.named row other term isOther mentions)
    rw [isSlot, (names.kept term slot isSlot).1]
  · rw [termsOf, docTerms]
    exact lists.freeDocs place (freeDocs ▸ member)

theorem Lists.setLength {length live total : Nat} {lengths : List Nat}
    (lists : index.Lists (update docs id (some ⟨0, fun _ => 0⟩))) :
    Lists { index with lengths := lengths, live := live, totalLength := total }
      (update docs id (some ⟨length, fun _ => 0⟩)) := by
  refine ⟨lists.nodup, fun place other isPlaced => ?_, lists.freeDocs⟩
  obtain ⟨row, isPlace, isOther⟩ := isPlaced
  by_cases same : row = id
  · subst same
    rw [update_self] at isOther
    cases isOther
    exact lists.mem place ⟨0, fun _ => 0⟩ ⟨row, isPlace, update_self ..⟩
  · rw [update_of_ne same] at isOther
    exact lists.mem place other ⟨row, isPlace, by rw [update_of_ne same, isOther]⟩

theorem Stores.foldl_enterTerm (stores : index.Stores (update docs id (some doc)))
    (lists : index.Lists (update docs id (some doc)))
    (isOrdinal : index.ordinals[id]? = some ordinal) (count : String -> Nat)
    (entries : List (Nat × Nat)) (nodup : (entries.map Prod.fst).Nodup)
    (unentered : ∀ entry ∈ entries, ∃ term : String, index.terms[term]? = some entry.1 ∧
      0 < entry.2 ∧ entry.2 = count term ∧ doc.count term = 0)
    (entered : ∀ term, doc.count term = count term ∨
      ∃ entry ∈ entries, index.terms[term]? = some entry.1) :
    (entries.foldl (Bm25Index.enterTerm ordinal doc.length) index).Stores
        (update docs id (some ⟨doc.length, count⟩)) ∧
      (entries.foldl (Bm25Index.enterTerm ordinal doc.length) index).Lists
        (update docs id (some ⟨doc.length, count⟩)) ∧
      (entries.foldl (Bm25Index.enterTerm ordinal doc.length) index).terms = index.terms := by
  induction entries generalizing index doc with
  | nil =>
    have all : doc = ⟨doc.length, count⟩ := by
      refine congrArg (Doc.mk doc.length) (funext fun term => ?_)
      rcases entered term with same | ⟨_, member, -⟩
      · exact same
      · cases member
    rw [<- all]
    exact ⟨stores, lists, rfl⟩
  | cons entry entries ih =>
    obtain ⟨slot, frequency⟩ := entry
    obtain ⟨fresh, distinct⟩ := nodup_cons.mp nodup
    obtain ⟨term, isSlot, occurs, isCount, zero⟩ := unentered (slot, frequency) mem_cons_self
    have storesNext := stores.enterTerm (update_self ..) isOrdinal isSlot occurs
    have listsNext := lists.enterTerm stores (update_self ..) isOrdinal isSlot zero occurs
    rw [update_idem] at storesNext listsNext
    have folded := ih storesNext listsNext isOrdinal distinct (fun later member => ?_) fun other => ?_
    · exact folded
    · obtain ⟨other, isOther, mentions, otherCount, otherZero⟩ :=
        unentered later (mem_cons_of_mem _ member)
      have differs : other ≠ term := by
        rintro rfl
        refine fresh (mem_map.mpr ⟨later, member, ?_⟩)
        exact Option.some.inj (isOther.symm.trans isSlot)
      exact ⟨other, isOther, mentions, otherCount, by rw [Doc.recount_of_ne differs, otherZero]⟩
    · by_cases same : other = term
      · rw [same, Doc.recount_self]
        exact .inl isCount
      · rw [Doc.recount_of_ne same]
        rcases entered other with already | ⟨later, member, isLater⟩
        · exact .inl already
        · rcases mem_cons.mp member with rfl | member
          · exact absurd (stores.termLeases.unique other term slot isLater isSlot) same
          · exact .inr ⟨later, member, isLater⟩

theorem totals_foldl_enterTerm (index : Bm25Index) (ordinal length : Nat)
    (entries : List (Nat × Nat)) :
    (entries.foldl (enterTerm ordinal length) index).live = index.live ∧
      (entries.foldl (enterTerm ordinal length) index).totalLength = index.totalLength := by
  induction entries generalizing index with
  | nil => exact ⟨rfl, rfl⟩
  | cons entry entries ih => exact ih (enterTerm ordinal length index entry)

/-- What is indexed of a text. -/
def docOf (isAlphanumeric : Char -> Bool) (text : String) : Doc :=
  ⟨(tokenize isAlphanumeric text).length, fun term => (tokenize isAlphanumeric text).count term⟩

theorem length_remove (index : Bm25Index) (id : RowId) :
    (index.remove id).ids.length = index.ids.length := by
  cases isOrdinal : index.ordinals[id]? with
  | none => rw [Bm25Index.remove, isOrdinal]
  | some ordinal =>
    rw [remove_eq isOrdinal]
    exact congrArg List.length (sameEntries_foldl index ordinal (index.termsOf ordinal)).1.1

theorem length_foldl_enterTerm (index : Bm25Index) (ordinal length : Nat)
    (entries : List (Nat × Nat)) :
    (entries.foldl (enterTerm ordinal length) index).ids = index.ids := by
  induction entries generalizing index with
  | nil => rfl
  | cons entry entries ih => exact ih (enterTerm ordinal length index entry)

/-- What an insertion needs of the 32-bit ordinals and counts: the tokens, the terms and the
documents are few enough. -/
structure Room (bound : Nat) (index : Bm25Index) (docs : RowId -> Option Doc) (id : RowId)
    (tokens : List String) : Prop where
  short : tokens.length < 2 ^ 32
  vocabulary : ∃ vocabulary : Finset String, vocabulary.card ≤ 2 ^ 32 ∧
    (∀ token ∈ tokens, token ∈ vocabulary) ∧ ∀ row doc term, row ≠ id -> docs row = some doc ->
      0 < doc.count term -> term ∈ vocabulary
  rows : ∃ rows : Finset RowId, rows.card < bound ∧
    ∀ row, row ≠ id -> (docs row).isSome -> row ∈ rows
  ids : index.ids.length ≤ bound

theorem Holds.insert {isAlphanumeric : Char -> Bool} {text : String} (holds : index.Holds docs)
    {bound : Nat} (wide : bound ≤ 2 ^ 32)
    (room : Room bound index docs id (tokenize isAlphanumeric text)) :
    (index.insert isAlphanumeric id text).Holds
        (update docs id (some (docOf isAlphanumeric text))) ∧
      (index.insert isAlphanumeric id text).live = (index.remove id).live + 1 ∧
      (index.insert isAlphanumeric id text).totalLength =
        (index.remove id).totalLength + (docOf isAlphanumeric text).length ∧
      (index.insert isAlphanumeric id text).ids.length ≤ bound := by
  obtain ⟨short, ⟨vocabulary, few, inside, mentioned⟩, ⟨rows, fewRows, held⟩, bounded⟩ := room
  obtain ⟨removed, -⟩ := holds.remove id
  have absent : update docs id none id = none := update_self ..
  have registered (term : String) (isNamed : ((index.remove id).terms[term]?).isSome) :
      term ∈ vocabulary := by
    obtain ⟨slot, isSlot⟩ := Option.isSome_iff_exists.mp isNamed
    obtain ⟨row, doc, isDoc, occurs⟩ :=
      (removed.stores.mentioned_iff isSlot).mp (removed.tight term slot isSlot)
    have differs : row ≠ id := by
      rintro rfl
      rw [absent] at isDoc
      cases isDoc
    rw [update_of_ne differs] at isDoc
    exact mentioned row doc term differs isDoc occurs
  obtain ⟨named, frequencies, counted, storesNamed, names, counts⟩ :=
    removed.stores.foldl_countToken short vocabulary few registered inside
  have others (isFree : named.freeDocs = []) : named.ids.length ≤ rows.card := by
    refine (isFree ▸ storesNamed.docLeases).size_le rows fun row isNamed => ?_
    have isPresent : (update docs id none row).isSome := by
      rw [<- storesNamed.present row]
      exact isNamed
    have differs : row ≠ id := by
      rintro rfl
      rw [absent] at isPresent
      cases isPresent
    rw [update_of_ne differs] at isPresent
    exact held row differs isPresent
  obtain ⟨placed, ordinal, taken, storesPlaced, listsPlaced, sameTerms, isOrdinal, live, total,
    grown⟩ := storesNamed.ordinalFor (removed.lists.named removed.stores names) absent
      fun isFree => (others isFree).trans_lt (by omega)
  have boundedPlaced : placed.ids.length ≤ bound := by
    rcases grown with same | ⟨isFree, grown⟩
    · rw [same, names.sameDocs.1, length_remove]
      exact bounded
    · have := others isFree
      omega
  have isLength : asU32 (tokenize isAlphanumeric text).length =
      (tokenize isAlphanumeric text).length := Nat.mod_eq_of_lt short
  let long : Bm25Index := { placed with
    lengths := placed.lengths.set ordinal (tokenize isAlphanumeric text).length
    live := placed.live + 1
    totalLength := placed.totalLength + (tokenize isAlphanumeric text).length }
  have inserted : index.insert isAlphanumeric id text = frequencies.toList.foldl
      (Bm25Index.enterTerm ordinal (tokenize isAlphanumeric text).length) long := by
    unfold Bm25Index.insert
    simp only [counted, taken, isLength]
    rfl
  have storesLong : long.Stores (update (update docs id none) id
      (some ⟨(tokenize isAlphanumeric text).length, fun _ => 0⟩)) := by
    have lengthened := storesPlaced.setLength (update_self ..) isOrdinal
      (tokenize isAlphanumeric text).length (placed.live + 1)
      (placed.totalLength + (tokenize isAlphanumeric text).length)
    rw [update_idem] at lengthened
    exact lengthened
  have listsLong : long.Lists (update (update docs id none) id
      (some ⟨(tokenize isAlphanumeric text).length, fun _ => 0⟩)) := listsPlaced.setLength
  have known (term : String) : long.terms[term]? = named.terms[term]? := by
    change placed.terms[term]? = _
    rw [sameTerms.1]
  have distinct : (frequencies.toList.map Prod.fst).Nodup := by
    rw [Std.ExtTreeMap.map_fst_toList_eq_keys]
    exact Std.ExtTreeMap.nodup_keys
  obtain ⟨stores, lists, terms⟩ := storesLong.foldl_enterTerm listsLong isOrdinal
    (docOf isAlphanumeric text).count frequencies.toList distinct
    (fun entry member => by
      obtain ⟨term, isToken, isSlot, isCount⟩ := (counts entry.1 entry.2).mp
        (Std.ExtTreeMap.mem_toList_iff_getElem?_eq_some.mp member)
      refine ⟨term, by rw [known, isSlot], ?_, isCount, rfl⟩
      rw [isCount]
      exact count_pos_iff.mpr isToken)
    fun term => by
      by_cases isToken : term ∈ tokenize isAlphanumeric text
      · obtain ⟨slot, isSlot⟩ := Option.isSome_iff_exists.mp (names.named term isToken)
        refine .inr ⟨(slot, _), Std.ExtTreeMap.mem_toList_iff_getElem?_eq_some.mpr
          ((counts slot _).mpr ⟨term, isToken, isSlot, rfl⟩), ?_⟩
        rw [known, isSlot]
      · exact .inl (count_eq_zero_of_not_mem isToken).symm
  rw [update_idem] at stores lists
  rw [inserted]
  obtain ⟨liveKept, totalKept⟩ := totals_foldl_enterTerm long ordinal
    (tokenize isAlphanumeric text).length frequencies.toList
  obtain ⟨-, -, -, -, -, liveNamed, totalNamed⟩ := names.sameDocs
  refine ⟨⟨stores, lists, fun term slot isSlot => (stores.mentioned_iff isSlot).mpr ?_⟩, ?_, ?_, ?_⟩
  · have isSlot' : named.terms[term]? = some slot := by rw [<- known, <- isSlot, <- terms]
    rcases names.fresh term slot isSlot' with before | isToken
    · obtain ⟨row, doc, isDoc, occurs⟩ :=
        (removed.stores.mentioned_iff before).mp (removed.tight term slot before)
      have differs : row ≠ id := by
        rintro rfl
        rw [absent] at isDoc
        cases isDoc
      rw [update_of_ne differs] at isDoc
      exact ⟨row, doc, by rw [update_of_ne differs, isDoc], occurs⟩
    · exact ⟨id, _, update_self .., count_pos_iff.mpr isToken⟩
  · rw [liveKept, <- liveNamed, <- live]
  · rw [totalKept, <- totalNamed, <- total]
    rfl
  · rw [length_foldl_enterTerm]
    exact boundedPlaced

end InlaySql.Bm25.Bm25Index
