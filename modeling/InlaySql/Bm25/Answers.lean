import InlaySql.Bm25.Pruning
import InlaySql.Bm25.Runs

/-!
# The answers of a search

A search of the index of a corpus answers as reading every posting does, and that is a function
of the corpus alone.
-/

namespace InlaySql.Bm25

open List Lib Sql Bm25Index

variable {isAlphanumeric : Char -> Bool} {logf : ℚ -> ℚ} {bound : Nat} {index : Bm25Index}
  {texts : Corpus} {query : String} {walk : TermWalk}

theorem sortByScoreDesc_perm {one other : List Scored} (perm : one.Perm other) :
    sortByScoreDesc one = sortByScoreDesc other := by
  rw [sortByScoreDesc_eq, sortByScoreDesc_eq]
  refine List.Perm.eq_of_pairwise (fun left right _ _ => le_antisymm)
    (Foremost.sorted_mergeSort one) (Foremost.sorted_mergeSort other) ?_
  exact (mergeSort_perm one _).trans (perm.trans (mergeSort_perm other _).symm)

namespace Bm25Index

/-! ## The walks of a query -/

theorem mem_cursors : walk ∈ index.cursors logf isAlphanumeric query ↔
    ∃ term ∈ tokenize isAlphanumeric query, ∃ slot : Nat, index.terms[term]? = some slot ∧
      walk = ⟨index.postingsOf slot, idf logf index.live (index.postingsOf slot).length,
        (index.impactOf slot).ceiling (idf logf index.live (index.postingsOf slot).length)
          index.average, 0⟩ := by
  unfold cursors
  rw [mem_filterMap]
  refine exists_congr fun term => and_congr_right fun _ => ?_
  rw [Option.map_eq_some_iff]
  exact exists_congr fun slot => and_congr_right fun _ => eq_comm

section

variable (agrees : Agrees isAlphanumeric bound index texts)

include agrees

theorem Agrees.postings_le {term : String} {slot : Nat} (isSlot : index.terms[term]? = some slot) :
    (index.postingsOf slot).length ≤ index.live := by
  have frequency : index.documentFrequency term = (index.postingsOf slot).length := by
    unfold documentFrequency
    rw [isSlot]
  rw [<- frequency, <- length_rowsOf, agrees.rowsOf_eq term, agrees.live, Corpus.rows]
  refine (length_filterMap_le _ _).trans ?_
  rw [Std.ExtTreeMap.length_toList]

theorem Agrees.started (logarithmic : Logarithmic logf) (query : String) :
    index.Started (index.cursors logf isAlphanumeric query) := by
  have stores := agrees.holds.stores
  constructor
  · intro walk member
    obtain ⟨term, _, slot, isSlot, rfl⟩ := mem_cursors.mp member
    exact stores.sorted term slot isSlot
  · intro walk member doc
    obtain ⟨term, _, slot, isSlot, rfl⟩ := mem_cursors.mp member
    have weighed := idf_nonneg logarithmic (agrees.postings_le isSlot)
    unfold shareOf
    cases found : (index.postingsOf slot).find? (·.doc = doc) with
    | none => exact Impact.ceiling_nonneg _ weighed
    | some posting =>
      have isPosting := mem_of_find?_eq_some found
      have same : posting.doc = doc := by simpa using find?_some found
      obtain ⟨rises, falls⟩ := stores.bounded isSlot posting isPosting
      obtain ⟨_, counted, _, _, _, occurs, isCount⟩ := stores.row_of_posting isSlot isPosting
      have mentions : 0 < posting.frequency := by
        rw [isCount]
        exact occurs
      subst same
      exact Impact.contribution_le_ceiling weighed mentions rises falls

end

theorem cursors_standing (index : Bm25Index) (query : String) :
    (index.cursors logf isAlphanumeric query).map (·.standing 0) =
      index.cursors logf isAlphanumeric query := by
  refine (map_congr_left fun walk member => ?_).trans (map_id _)
  obtain ⟨term, _, slot, _, rfl⟩ := mem_cursors.mp member
  have isFirst : (index.postingsOf slot).takeWhile (·.doc < 0) = [] := by
    cases index.postingsOf slot with
    | nil => rfl
    | cons posting postings => rw [takeWhile_cons_of_neg (by simp)]
  unfold TermWalk.standing
  dsimp only
  rw [isFirst]
  rfl

theorem Agrees.row_of_mentions (agrees : Agrees isAlphanumeric bound index texts) {doc : Nat}
    (mentioned : ∃ walk ∈ index.cursors logf isAlphanumeric query, walk.Mentions doc) :
    ∃ id text, index.ids[doc]? = some id ∧ index.ordinals[id]? = some doc ∧
      texts[id]? = some text := by
  obtain ⟨walk, member, posting, isPosting, rfl⟩ := mentioned
  obtain ⟨term, _, slot, isSlot, rfl⟩ := mem_cursors.mp member
  obtain ⟨id, counted, isId, isOrdinal, isDoc, -, -⟩ :=
    agrees.holds.stores.row_of_posting isSlot isPosting
  obtain ⟨text, held, -⟩ : ∃ text, texts[id]? = some text ∧
      docOf isAlphanumeric text = counted := by
    simpa [Corpus.docs] using isDoc
  exact ⟨id, text, isId, isOrdinal, held⟩

/-! ## The hits of all documents -/

/-- The hits when every document under a term of the query is scored. -/
def hitsOf (index : Bm25Index) (admits : RowId -> Bool) (initial : List TermWalk) : List Scored :=
  index.ordinals.toList.filterMap fun entry =>
    if admits entry.1 ∧ ∃ walk ∈ initial, walk.Mentions entry.2 then
      some ⟨entry.1, index.scoreOf initial entry.2⟩
    else none

theorem exhaustive_eq (index : Bm25Index) (query : String) (k : Nat) (admits : RowId -> Bool) :
    index.exhaustive logf isAlphanumeric query k admits =
      (sortByScoreDesc (index.hitsOf admits (index.cursors logf isAlphanumeric query))).take k :=
  rfl

variable {filter : RowId -> Except Error Bool} {hit : Scored} {doc : Nat}

variable {initial : List TermWalk}

theorem mem_hitsOf {admits : RowId -> Bool} :
    hit ∈ index.hitsOf admits initial ↔ ∃ ordinal : Nat, index.ordinals[hit.id]? = some ordinal ∧
      admits hit.id = true ∧ (∃ walk ∈ initial, walk.Mentions ordinal) ∧
      hit.score = index.scoreOf initial ordinal := by
  unfold hitsOf
  rw [mem_filterMap]
  constructor
  · rintro ⟨⟨id, ordinal⟩, member, isHit⟩
    split at isHit
    · next wanted =>
        cases isHit
        exact ⟨ordinal, Std.ExtTreeMap.mem_toList_iff_getElem?_eq_some.mp member, wanted.1,
          wanted.2, rfl⟩
    · cases isHit
  · rintro ⟨ordinal, isOrdinal, admitted, mentioned, isScore⟩
    refine ⟨(hit.id, ordinal), Std.ExtTreeMap.mem_toList_iff_getElem?_eq_some.mpr isOrdinal, ?_⟩
    rw [if_pos ⟨admitted, mentioned⟩, <- isScore]

theorem nodup_hitsOf (index : Bm25Index) (admits : RowId -> Bool) (initial : List TermWalk) :
    (index.hitsOf admits initial).Nodup := by
  have keyed : index.ordinals.toList.Pairwise fun one other => one.1 ≠ other.1 :=
    (Std.ExtTreeMap.distinct_keys_toList (t := index.ordinals)).imp fun {one other} apart same => by
      rw [same] at apart
      simp at apart
  refine List.Pairwise.filterMap _ (fun one other apart found isFound otherFound isOther => ?_) keyed
  rintro rfl
  split at isFound
  · split at isOther
    · cases isFound
      exact apart (congrArg Scored.id (Option.some.inj isOther)).symm
    · cases isOther
  · cases isFound

theorem mem_hitsBelow {stop : Nat} : hit ∈ index.hitsBelow filter initial stop ↔
      ∃ doc < stop, index.hitOf filter initial doc = some hit := by
  induction stop with
  | zero => simp [hitsBelow]
  | succ stop ih =>
    unfold hitsBelow
    rw [mem_append, ih, Option.mem_toList]
    constructor
    · rintro (isHit | ⟨doc, isBefore, isHit⟩)
      · exact ⟨stop, Nat.lt_succ_self stop, isHit⟩
      · exact ⟨doc, by omega, isHit⟩
    · rintro ⟨doc, isBefore, isHit⟩
      rcases Nat.lt_succ_iff_lt_or_eq.mp isBefore with earlier | rfl
      · exact .inr ⟨doc, earlier, isHit⟩
      · exact .inl isHit

section

variable (agrees : Agrees isAlphanumeric bound index texts)

include agrees

theorem Agrees.hitOf_eq_some :
    index.hitOf filter (index.cursors logf isAlphanumeric query) doc = some hit ↔
      index.ordinals[hit.id]? = some doc ∧ admitsOf filter hit.id = true ∧
        (∃ walk ∈ index.cursors logf isAlphanumeric query, walk.Mentions doc) ∧
        hit.score = index.scoreOf (index.cursors logf isAlphanumeric query) doc := by
  unfold hitOf
  dsimp only
  constructor
  · intro isHit
    split at isHit
    · next wanted =>
        cases isHit
        obtain ⟨id, text, isId, isOrdinal, -⟩ := agrees.row_of_mentions wanted.2
        rw [isId, Option.getD_some] at wanted ⊢
        exact ⟨isOrdinal, wanted.1, wanted.2, rfl⟩
    · cases isHit
  · rintro ⟨isOrdinal, admitted, mentioned, isScore⟩
    rw [agrees.holds.stores.ids hit.id doc isOrdinal, Option.getD_some,
      if_pos ⟨admitted, mentioned⟩, <- isScore]

theorem Agrees.nodup_hitsBelow (stop : Nat) :
    (index.hitsBelow filter (index.cursors logf isAlphanumeric query) stop).Nodup := by
  induction stop with
  | zero => exact nodup_nil
  | succ stop ih =>
    unfold hitsBelow
    cases isHit : index.hitOf filter (index.cursors logf isAlphanumeric query) stop with
    | none => exact ih
    | some hit =>
      refine nodup_cons.mpr ⟨fun isEarlier => ?_, ih⟩
      obtain ⟨doc, isBefore, isOther⟩ := mem_hitsBelow.mp isEarlier
      have one := (agrees.hitOf_eq_some.mp isHit).1
      have other := (agrees.hitOf_eq_some.mp isOther).1
      rw [one] at other
      cases other
      exact Nat.lt_irrefl _ isBefore

theorem Agrees.hitsBelow_perm :
    (index.hitsBelow filter (index.cursors logf isAlphanumeric query) bound).Perm
      (index.hitsOf (admitsOf filter) (index.cursors logf isAlphanumeric query)) := by
  refine (perm_ext_iff_of_nodup (agrees.nodup_hitsBelow bound)
    (nodup_hitsOf index _ _)).mpr fun hit => ?_
  rw [mem_hitsBelow, mem_hitsOf]
  constructor
  · rintro ⟨doc, -, isHit⟩
    exact ⟨doc, agrees.hitOf_eq_some.mp isHit⟩
  · rintro ⟨doc, found⟩
    exact ⟨doc, (agrees.holds.stores.docLeases.lt hit.id doc found.1).trans_le agrees.ids,
      agrees.hitOf_eq_some.mpr found⟩

end

/-! ## The search -/

theorem Agrees.search_spec (agrees : Agrees isAlphanumeric bound index texts)
    (logarithmic : Logarithmic logf) (query : String) (k : Nat)
    (filter : Option (RowId -> Except Error Bool)) :
    index.search logf isAlphanumeric query k filter =
        some (.ok ((sortByScoreDesc (index.hitsBelow (filter.getD fun _ => .ok true)
          (index.cursors logf isAlphanumeric query) Impact.maxU32)).take k)) ∨
      ∃ (id : RowId) (error : Error), (texts[id]?).isSome ∧
        (filter.getD fun _ => .ok true) id = .error error ∧
        index.search logf isAlphanumeric query k filter = some (.error error) := by
  generalize isFilter : (filter.getD fun _ => .ok true) = total
  have unmentioned (none_ : ∀ doc, ¬∃ walk ∈ index.cursors logf isAlphanumeric query,
      walk.Mentions doc) :
      (sortByScoreDesc (index.hitsBelow total (index.cursors logf isAlphanumeric query)
        Impact.maxU32)).take k = [] := by
    have isEmpty : index.hitsBelow total (index.cursors logf isAlphanumeric query)
        Impact.maxU32 = [] := by
      refine eq_nil_iff_forall_not_mem.mpr fun hit member => ?_
      obtain ⟨doc, -, isHit⟩ := mem_hitsBelow.mp member
      exact none_ doc (agrees.hitOf_eq_some.mp isHit).2.2.1
    rw [isEmpty]
    unfold sortByScoreDesc
    rw [mergeSort_nil, take_nil]
  unfold search
  by_cases idle : index.live = 0 ∨ k = 0
  · rw [if_pos idle]
    refine .inl (congrArg (some <| Except.ok ·) ?_)
    rcases idle with none_ | rfl
    · refine (unmentioned fun doc mentioned => ?_).symm
      obtain ⟨id, text, -, -, held⟩ := agrees.row_of_mentions mentioned
      have counted := Corpus.size_of_held held
      rw [<- agrees.live, none_] at counted
      cases counted
    · exact take_zero.symm
  rw [if_neg idle]
  dsimp only
  by_cases isEmpty : index.cursors logf isAlphanumeric query = []
  · rw [if_pos isEmpty]
    refine .inl (congrArg (some <| Except.ok ·) (unmentioned fun doc mentioned => ?_).symm)
    rw [isEmpty] at mentioned
    obtain ⟨walk, member, -⟩ := mentioned
    cases member
  rw [if_neg isEmpty, isFilter]
  have going : index.Going total (index.cursors logf isAlphanumeric query)
      (orderOf (index.cursors logf isAlphanumeric query)) 0 0 ⟨k, []⟩ :=
    ⟨⟨.nil, List.Pairwise.nil⟩, Nat.zero_le _, Nat.zero_le _, .inl rfl⟩
  have enough : remaining (index.cursors logf isAlphanumeric query) 0 <
      fuel (index.cursors logf isAlphanumeric query) := by
    unfold remaining fuel
    simp
  have outcome := going.walk (agrees.started logarithmic query) (orderOf_perm _) _ enough
  rw [cursors_standing] at outcome
  rcases outcome with ⟨top, isTop, best, sameK⟩ | ⟨doc, error, mentioned, refused, isError⟩
  · refine .inl ?_
    rw [isTop, Option.map_some]
    refine congrArg (some <| Except.ok ·) ?_
    rw [best.intoRanked, show top.k = k from sameK]
  · refine .inr ?_
    obtain ⟨id, text, isId, -, held⟩ := agrees.row_of_mentions mentioned
    rw [isId, Option.getD_some] at refused
    refine ⟨id, error, by rw [held]; rfl, refused, ?_⟩
    rw [isError]
    rfl

/-- While the ordinals are below the greatest 32-bit one, a search answers as reading every posting
does, or with an error of the filter. -/
theorem Agrees.search_eq (agrees : Agrees isAlphanumeric Impact.maxU32 index texts)
    (logarithmic : Logarithmic logf) (query : String) (k : Nat)
    (filter : Option (RowId -> Except Error Bool)) :
    index.search logf isAlphanumeric query k filter =
        some (.ok (index.exhaustive logf isAlphanumeric query k
          (admitsOf (filter.getD fun _ => .ok true)))) ∨
      ∃ (id : RowId) (error : Error), (texts[id]?).isSome ∧
        (filter.getD fun _ => .ok true) id = .error error ∧
        index.search logf isAlphanumeric query k filter = some (.error error) := by
  have perm : (index.hitsBelow (filter.getD fun _ => .ok true)
      (index.cursors logf isAlphanumeric query) Impact.maxU32).Perm
        (index.hitsOf (admitsOf (filter.getD fun _ => .ok true))
          (index.cursors logf isAlphanumeric query)) := agrees.hitsBelow_perm
  rw [exhaustive_eq, <- sortByScoreDesc_perm perm]
  exact agrees.search_spec logarithmic query k filter

end Bm25Index

/-! ## The answers of a corpus -/

namespace Corpus

/-- The score of a text: what each token of the query contributes that occurs in it. -/
def score (logf : ℚ → ℚ) (isAlphanumeric : Char → Bool) (texts : Corpus) (query text : String) : ℚ :=
  ((tokenize isAlphanumeric query).map fun term =>
    if 0 < (docOf isAlphanumeric text).count term then
      contribution (idf logf texts.size (texts.rows isAlphanumeric term).length)
        ((docOf isAlphanumeric text).count term)
        (lengthNormalisation (docOf isAlphanumeric text).length
          (averageLength (texts.length isAlphanumeric) texts.size))
    else 0).sum

/-- The admitted texts that mention a token of the query, with their scores. -/
def hits (logf : ℚ -> ℚ) (isAlphanumeric : Char -> Bool) (texts : Corpus) (query : String)
    (admits : RowId -> Bool) : List Scored :=
  texts.toList.filterMap fun entry =>
    if admits entry.1 ∧ ∃ term ∈ tokenize isAlphanumeric query,
        0 < (docOf isAlphanumeric entry.2).count term then
      some ⟨entry.1, texts.score logf isAlphanumeric query entry.2⟩
    else none

/-- The best texts of a corpus for a query. -/
def answers (logf : ℚ -> ℚ) (isAlphanumeric : Char -> Bool) (texts : Corpus) (query : String)
    (k : Nat) (admits : RowId -> Bool) : List Scored :=
  (sortByScoreDesc (texts.hits logf isAlphanumeric query admits)).take k

variable {admits : RowId -> Bool} {hit : Scored}

theorem mem_hits : hit ∈ texts.hits logf isAlphanumeric query admits ↔ ∃ text : String,
    texts[hit.id]? = some text ∧ admits hit.id = true ∧
      (∃ term ∈ tokenize isAlphanumeric query, 0 < (docOf isAlphanumeric text).count term) ∧
      hit.score = texts.score logf isAlphanumeric query text := by
  unfold hits
  rw [mem_filterMap]
  constructor
  · rintro ⟨⟨id, text⟩, member, isHit⟩
    split at isHit
    · next wanted =>
        cases isHit
        exact ⟨text, Std.ExtTreeMap.mem_toList_iff_getElem?_eq_some.mp member, wanted.1, wanted.2,
          rfl⟩
    · cases isHit
  · rintro ⟨text, held, admitted, mentioned, isScore⟩
    refine ⟨(hit.id, text), Std.ExtTreeMap.mem_toList_iff_getElem?_eq_some.mpr held, ?_⟩
    rw [if_pos ⟨admitted, mentioned⟩, <- isScore]

theorem nodup_hits (texts : Corpus) (admits : RowId -> Bool) :
    (texts.hits logf isAlphanumeric query admits).Nodup := by
  have keyed : texts.toList.Pairwise fun one other => one.1 ≠ other.1 :=
    (Std.ExtTreeMap.distinct_keys_toList (t := texts)).imp fun {one other} apart same => by
      rw [same] at apart
      simp at apart
  refine List.Pairwise.filterMap _ (fun one other apart found isFound otherFound isOther => ?_) keyed
  rintro rfl
  split at isFound
  · split at isOther
    · cases isFound
      exact apart (congrArg Scored.id (Option.some.inj isOther)).symm
    · cases isOther
  · cases isFound

end Corpus

namespace Bm25Index

theorem sum_map_filterMap {α β : Type} (give : α -> Option β) (size : β -> ℚ) (items : List α) :
    ((items.filterMap give).map size).sum =
      (items.map fun item => ((give item).map size).getD 0).sum := by
  induction items with
  | nil => rfl
  | cons item items ih =>
    rw [map_cons, sum_cons, filterMap_cons, <- ih]
    cases give item with
    | none => exact (zero_add _).symm
    | some given => rfl

variable {text : String} {ordinal : Nat}

section

variable (agrees : Agrees isAlphanumeric bound index texts)

include agrees

theorem Agrees.find_posting {id : RowId} {term : String} {slot : Nat}
    (held : texts[id]? = some text) (isOrdinal : index.ordinals[id]? = some ordinal)
    (isSlot : index.terms[term]? = some slot) :
    (index.postingsOf slot).find? (·.doc = ordinal) =
      if 0 < (docOf isAlphanumeric text).count term then
        some ⟨ordinal, (docOf isAlphanumeric text).count term⟩
      else none := by
  have stores := agrees.holds.stores
  have isDoc : texts.docs isAlphanumeric id = some (docOf isAlphanumeric text) := by
    unfold Corpus.docs
    rw [held]
    rfl
  have placed : index.Places (texts.docs isAlphanumeric) ordinal (docOf isAlphanumeric text) :=
    ⟨id, isOrdinal, isDoc⟩
  have ofPosting {posting : Posting} (member : posting ∈ index.postingsOf slot)
      (same : posting.doc = ordinal) : 0 < (docOf isAlphanumeric text).count term ∧
        posting.frequency = (docOf isAlphanumeric text).count term := by
    obtain ⟨doc, isPlace, occurs, isCount⟩ := (stores.postings term slot isSlot posting).mp member
    rw [same] at isPlace
    obtain rfl := stores.places_unique isPlace placed
    exact ⟨occurs, isCount⟩
  cases found : (index.postingsOf slot).find? (·.doc = ordinal) with
  | some posting =>
    have same : posting.doc = ordinal := by simpa using find?_some found
    obtain ⟨occurs, isCount⟩ := ofPosting (mem_of_find?_eq_some found) same
    rw [if_pos occurs, <- isCount, <- same]
  | none =>
    rw [if_neg]
    intro occurs
    have member := (stores.postings term slot isSlot
      ⟨ordinal, (docOf isAlphanumeric text).count term⟩).mpr ⟨_, placed, occurs, rfl⟩
    rw [find?_eq_none] at found
    exact absurd (found _ member) (by simp)

section

variable {id : RowId} (held : texts[id]? = some text)
    (isOrdinal : index.ordinals[id]? = some ordinal)

include held isOrdinal

theorem Agrees.mentions_iff :
    (∃ walk ∈ index.cursors logf isAlphanumeric query, walk.Mentions ordinal) ↔
      ∃ term ∈ tokenize isAlphanumeric query, 0 < (docOf isAlphanumeric text).count term := by
  constructor
  · rintro ⟨walk, member, posting, isPosting, same⟩
    obtain ⟨term, isTerm, slot, isSlot, rfl⟩ := mem_cursors.mp member
    refine ⟨term, isTerm, ?_⟩
    by_contra never
    have found := agrees.find_posting held isOrdinal isSlot
    rw [if_neg never, find?_eq_none] at found
    exact found posting isPosting (by simpa using same)
  · rintro ⟨term, isTerm, occurs⟩
    have isDoc : texts.docs isAlphanumeric id = some (docOf isAlphanumeric text) := by
      unfold Corpus.docs
      rw [held]
      rfl
    obtain ⟨slot, isSlot⟩ := Option.isSome_iff_exists.mp
      (agrees.holds.stores.named id _ term isDoc occurs)
    have found := agrees.find_posting held isOrdinal isSlot
    rw [if_pos occurs] at found
    exact ⟨_, mem_cursors.mpr ⟨term, isTerm, slot, isSlot, rfl⟩, _, mem_of_find?_eq_some found,
      rfl⟩

theorem Agrees.scoreOf_eq : index.scoreOf (index.cursors logf isAlphanumeric query) ordinal =
      texts.score logf isAlphanumeric query text := by
  have stores := agrees.holds.stores
  have isDoc : texts.docs isAlphanumeric id = some (docOf isAlphanumeric text) := by
    unfold Corpus.docs
    rw [held]
    rfl
  have isLength := stores.lengths ordinal _ ⟨id, isOrdinal, isDoc⟩
  have isAverage : index.average = averageLength (texts.length isAlphanumeric) texts.size := by
    unfold average
    rw [agrees.totalLength, agrees.live]
  unfold scoreOf cursors Corpus.score
  rw [sum_map_filterMap]
  refine congrArg List.sum (map_congr_left fun term _ => ?_)
  cases isSlot : index.terms[term]? with
  | none =>
    rw [if_neg]
    · rfl
    · intro occurs
      have isNamed := stores.named id _ term isDoc occurs
      rw [isSlot] at isNamed
      cases isNamed
  | some slot =>
    have frequency : (index.postingsOf slot).length = (texts.rows isAlphanumeric term).length := by
      rw [<- agrees.rowsOf_eq term, length_rowsOf]
      unfold documentFrequency
      rw [isSlot]
    simp only [Option.map_some, Option.getD_some, agrees.find_posting held isOrdinal isSlot,
      frequency, agrees.live]
    by_cases occurs : 0 < (docOf isAlphanumeric text).count term
    · simp only [if_pos occurs, Option.map_some, contributed, isLength, isAverage]
    · simp only [if_neg occurs, Option.map_none, contributed]

end

theorem Agrees.exhaustive_eq_answers (query : String) (k : Nat) (admits : RowId -> Bool) :
    index.exhaustive logf isAlphanumeric query k admits =
      texts.answers logf isAlphanumeric query k admits := by
  rw [exhaustive_eq, Corpus.answers, sortByScoreDesc_perm]
  refine (perm_ext_iff_of_nodup (nodup_hitsOf index _ _) (Corpus.nodup_hits texts _)).mpr
    fun hit => ?_
  rw [mem_hitsOf, Corpus.mem_hits]
  have present := agrees.holds.stores.present hit.id
  constructor
  · rintro ⟨ordinal, isOrdinal, admitted, mentioned, isScore⟩
    obtain ⟨text, held⟩ : ∃ text, texts[hit.id]? = some text := by
      rw [isOrdinal, Corpus.docs, Option.isSome_map] at present
      exact Option.isSome_iff_exists.mp present.symm
    exact ⟨text, held, admitted, (agrees.mentions_iff held isOrdinal).mp mentioned,
      isScore.trans (agrees.scoreOf_eq held isOrdinal)⟩
  · rintro ⟨text, held, admitted, mentioned, isScore⟩
    obtain ⟨ordinal, isOrdinal⟩ : ∃ ordinal : Nat, index.ordinals[hit.id]? = some ordinal := by
      refine Option.isSome_iff_exists.mp (present.trans ?_)
      unfold Corpus.docs
      rw [held]
      rfl
    exact ⟨ordinal, isOrdinal, admitted, (agrees.mentions_iff held isOrdinal).mpr mentioned,
      isScore.trans (agrees.scoreOf_eq held isOrdinal).symm⟩

end

end Bm25Index

end InlaySql.Bm25
