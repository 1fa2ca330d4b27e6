import InlaySql.Bm25.Answers

/-!
# What the index promises after any churn

Whatever was inserted, removed and reloaded, a search answers as reading every posting does, and
the index says of its corpus what the corpus says. Both hold as long as 32 bits suffice; the last
32-bit ordinal is the mark of an ended walk, and a length is cut to 32 bits while the total is not.
-/

namespace InlaySql.Bm25

open List Lib Sql Bm25Index

variable {isAlphanumeric : Char -> Bool} {logf : ℚ -> ℚ} {bound : Nat} {index : Bm25Index}
  {texts : Corpus} {text : String}

/-! ## Corpora of one text -/

namespace Corpus

/-- Every row has the same text. -/
def Uniform (text : String) (texts : Corpus) : Prop :=
  ∀ (id : RowId) (other : String), texts[id]? = some other -> other = text

theorem within_uniform (uniform : texts.Uniform text) (rows : texts.size ≤ bound)
    (ids : ∀ id : RowId, (texts[id]?).isSome -> id < 2 ^ 64)
    (tokens : (tokenize isAlphanumeric text).length < 2 ^ 32)
    (short : ∀ token ∈ tokenize isAlphanumeric text, Short token) :
    texts.Within isAlphanumeric bound := by
  refine ⟨rows, lt_of_le_of_lt ?_ tokens, fun id other held => ids id (by rw [held]; rfl),
    fun id other held => uniform id other held ▸ tokens,
    fun id other held => uniform id other held ▸ short⟩
  have spoken : (texts.vocabulary isAlphanumeric).toFinset ⊆
      (tokenize isAlphanumeric text).toFinset := by
    intro token isToken
    rw [mem_toFinset, vocabulary, mem_dedup, mem_flatMap] at isToken
    obtain ⟨⟨id, other⟩, member, isToken⟩ := isToken
    have held := Std.ExtTreeMap.mem_toList_iff_getElem?_eq_some.mp member
    rw [mem_toFinset, <- uniform id other held]
    exact isToken
  calc (texts.vocabulary isAlphanumeric).length = (texts.vocabulary isAlphanumeric).toFinset.card :=
        (toFinset_card_of_nodup (nodup_dedup _)).symm
    _ ≤ (tokenize isAlphanumeric text).toFinset.card := Finset.card_le_card spoken
    _ ≤ (tokenize isAlphanumeric text).length := toFinset_card_le _

theorem Uniform.insert (uniform : texts.Uniform text) (id : RowId) :
    Uniform text (texts.insert id text) := by
  intro row other held
  rw [congrFun (getElem?_insert texts id text) row] at held
  by_cases same : row = id
  · rw [same, Function.update_self] at held
    exact (Option.some.inj held).symm
  · rw [Function.update_of_ne same] at held
    exact uniform row other held

theorem uniform_empty (text : String) : Uniform text ∅ := by
  intro id other held
  simp at held

end Corpus

theorem bounded_uniform (tokens : (tokenize isAlphanumeric text).length < 2 ^ 32)
    (short : ∀ token ∈ tokenize isAlphanumeric text, Short token) (rows : List Nat)
    (ids : ∀ id ∈ rows, id < 2 ^ 64) (nodup : rows.Nodup) (uniform : texts.Uniform text)
    (held : ∀ id : RowId, (texts[id]?).isSome -> id < 2 ^ 64)
    (fresh : ∀ id ∈ rows, texts[id]? = none) (room : texts.size + rows.length ≤ bound) :
    Bounded isAlphanumeric bound texts (rows.map (Call.insert · text)) ∧
      ((rows.map (Call.insert · text)).foldl Call.corpus texts).size = texts.size + rows.length ∧
      ((rows.map (Call.insert · text)).foldl Call.corpus texts).Uniform text ∧
      ∀ id : RowId, (((rows.map (Call.insert · text)).foldl Call.corpus texts)[id]?).isSome ->
        (texts[id]?).isSome ∨ id ∈ rows := by
  induction rows generalizing texts with
  | nil => exact ⟨trivial, rfl, uniform, fun id isHeld => .inl isHeld⟩
  | cons row rows ih =>
    obtain ⟨apart, distinct⟩ := nodup_cons.mp nodup
    have absent := fresh row mem_cons_self
    have isHeld (id : RowId) : ((texts.insert row text)[id]?).isSome ->
        (texts[id]?).isSome ∨ id = row := by
      rw [congrFun (getElem?_insert texts row text) id]
      by_cases same : id = row
      · exact fun _ => .inr same
      · rw [Function.update_of_ne same]
        exact .inl
    have size : (texts.insert row text).size = texts.size + 1 := by
      rw [Std.ExtTreeMap.size_insert, if_neg]
      rw [Std.ExtTreeMap.contains_eq_isSome_getElem?, absent]
      simp
    have below (id : RowId) (isSome : ((texts.insert row text)[id]?).isSome) : id < 2 ^ 64 := by
      rcases isHeld id isSome with before | rfl
      · exact held id before
      · exact ids id mem_cons_self
    rw [length_cons] at room
    obtain ⟨bounded, total, uniformLast, from_⟩ := ih
      (fun id member => ids id (mem_cons_of_mem _ member)) distinct (uniform.insert row) below
      (fun id member => by
        rw [congrFun (getElem?_insert texts row text) id, Function.update_of_ne]
        · exact fresh id (mem_cons_of_mem _ member)
        · rintro rfl
          exact apart member) (by omega)
    refine ⟨⟨Corpus.within_uniform (uniform.insert row) ?_ below tokens short, bounded⟩, ?_,
      uniformLast, fun id isSome => ?_⟩
    · exact size.trans_le (by omega)
    · rw [map_cons, foldl_cons, length_cons]
      refine total.trans ((congrArg (· + rows.length) size).trans ?_)
      omega
    · rcases from_ id isSome with before | later
      · rcases isHeld id before with before | rfl
        · exact .inl before
        · exact .inr mem_cons_self
      · exact .inr (mem_cons_of_mem _ later)

/-! ## Searching -/

/-- After any churn within bounds, a search answers as reading every posting does, or with an error
of the filter on a row there is. -/
theorem pruned_eq_exhaustive (isAlphanumeric : Char -> Bool) (logf : ℚ -> ℚ)
    (logarithmic : Logarithmic logf) (calls : List Call)
    (bounded : Bounded isAlphanumeric Impact.maxU32 ∅ calls) :
    ∃ index, calls.foldlM (Call.run isAlphanumeric) new = .ok index ∧ ∀ query k filter,
        index.search logf isAlphanumeric query k filter =
            some (.ok (index.exhaustive logf isAlphanumeric query k
              (admitsOf (filter.getD fun _ => .ok true)))) ∨
          ∃ (id : RowId) (error : Error), ((calls.foldl Call.corpus ∅)[id]?).isSome ∧
            (filter.getD fun _ => .ok true) id = .error error ∧
            index.search logf isAlphanumeric query k filter = some (.error error) := by
  obtain ⟨index, isIndex, agrees⟩ := run_agrees calls (by decide) agrees_new bounded
  exact ⟨index, isIndex, fun query k filter => agrees.search_eq logarithmic query k filter⟩

theorem tokens_a : tokenize Char.isAlphanum "a" = ["a"] := by decide +kernel

/-- The natural logarithm in single precision: of one document under a term, and of three. -/
def logOfOne (number : ℚ) : ℚ :=
  if number = 4 / 3 then 9653009 / 33554432 else if number = 8 / 7 then 2240285 / 16777216 else 0

theorem logarithmic_logOfOne : Logarithmic logOfOne := by
  intro number _
  unfold logOfOne
  split_ifs <;> norm_num

/-- The best of three rows of one text is found without its two equals. -/
theorem pruned_eq_exhaustive_best :
    ∃ index, ([7, 8, 9].map (Call.insert · "a")).foldlM (Call.run Char.isAlphanum) new = .ok index ∧
      ∀ query, index.search logOfOne Char.isAlphanum query 1 none =
        some (.ok (index.exhaustive logOfOne Char.isAlphanum query 1 (admitsOf fun _ => .ok true))) := by
  have bounded : Bounded Char.isAlphanum Impact.maxU32 ∅ ([7, 8, 9].map (Call.insert · "a")) :=
    (bounded_uniform (by rw [tokens_a]; decide) (by rw [tokens_a]; decide +kernel) [7, 8, 9]
      (by decide) (by decide) (Corpus.uniform_empty "a") (by simp) (by simp)
      (by simp [Impact.maxU32])).1
  obtain ⟨index, isIndex, found⟩ :=
    pruned_eq_exhaustive Char.isAlphanum logOfOne logarithmic_logOfOne _ bounded
  refine ⟨index, isIndex, fun query => ?_⟩
  rcases found query 1 none with exact_ | ⟨_, _, _, failed, _⟩
  · exact exact_
  · cases failed

theorem exists_last (agrees : Agrees isAlphanumeric (Impact.maxU32 + 1) index texts)
    (many : texts.size = Impact.maxU32 + 1) :
    ∃ id : RowId, index.ordinals[id]? = some Impact.maxU32 := by
  by_contra none_
  push Not at none_
  have stores := agrees.holds.stores
  have isOrdinal (id : RowId) (member : id ∈ texts.keys.toFinset) :
      ∃ ordinal : Nat, index.ordinals[id]? = some ordinal ∧ ordinal < Impact.maxU32 := by
    rw [mem_toFinset, Std.ExtTreeMap.mem_keys, <- Std.ExtTreeMap.isSome_getElem?_iff_mem] at member
    have present := stores.present id
    rw [Corpus.docs, Option.isSome_map, member] at present
    obtain ⟨ordinal, isOrdinal⟩ := Option.isSome_iff_exists.mp present
    have inside := (stores.docLeases.lt id ordinal isOrdinal).trans_le agrees.ids
    have apart : ordinal ≠ Impact.maxU32 := by
      rintro rfl
      exact none_ id isOrdinal
    exact ⟨ordinal, isOrdinal, by omega⟩
  choose! ordinalOf isOrdinal inside using isOrdinal
  have few : texts.keys.toFinset.card ≤ (Finset.range Impact.maxU32).card :=
    Finset.card_le_card_of_injOn ordinalOf
      (fun id member => Finset.mem_coe.mpr (Finset.mem_range.mpr (inside id member)))
      fun one isOne other isOther same => by
        have first := isOrdinal one isOne
        rw [same] at first
        exact stores.docLeases.unique one other (ordinalOf other) first (isOrdinal other isOther)
  rw [Finset.card_range, toFinset_card_of_nodup Std.ExtTreeMap.nodup_keys,
    Std.ExtTreeMap.length_keys, many] at few
  omega

theorem length_hitsBelow_le (index : Bm25Index) (filter : RowId -> Except Error Bool)
    (initial : List TermWalk) (stop : Nat) : (index.hitsBelow filter initial stop).length ≤ stop := by
  induction stop with
  | zero => exact le_refl 0
  | succ stop ih =>
    unfold hitsBelow
    have one : (index.hitOf filter initial stop).toList.length ≤ 1 := by
      cases index.hitOf filter initial stop with
      | none => exact Nat.zero_le 1
      | some hit => exact le_refl 1
    rw [length_append]
    omega

theorem search_ne_exhaustive (logarithmic : Logarithmic logf)
    (agrees : Agrees Char.isAlphanum (Impact.maxU32 + 1) index texts)
    (many : texts.size = Impact.maxU32 + 1) (uniform : texts.Uniform "a") :
    index.search logf Char.isAlphanum "a" (Impact.maxU32 + 1) none ≠
      some (.ok (index.exhaustive logf Char.isAlphanum "a" (Impact.maxU32 + 1)
        (admitsOf fun _ => .ok true))) := by
  intro claimed
  obtain ⟨id, isOrdinal⟩ := exists_last agrees many
  obtain ⟨text, held⟩ : ∃ text, texts[id]? = some text := by
    have present := agrees.holds.stores.present id
    rw [isOrdinal, Corpus.docs, Option.isSome_map] at present
    exact Option.isSome_iff_exists.mp present.symm
  obtain rfl := uniform id text held
  have mentioned : ∃ walk ∈ index.cursors logf Char.isAlphanum "a", walk.Mentions Impact.maxU32 := by
    refine (agrees.mentions_iff held isOrdinal).mpr ⟨"a", ?_, ?_⟩
    · exact mem_cons_self
    · refine count_pos_iff.mpr ?_
      exact mem_cons_self
  have isHit : index.hitOf (fun _ => .ok true) (index.cursors logf Char.isAlphanum "a")
      Impact.maxU32 = some ⟨id, index.scoreOf (index.cursors logf Char.isAlphanum "a")
        Impact.maxU32⟩ :=
    agrees.hitOf_eq_some.mpr ⟨isOrdinal, rfl, mentioned, rfl⟩
  have perm : (index.hitsBelow (fun _ => .ok true) (index.cursors logf Char.isAlphanum "a")
      (Impact.maxU32 + 1)).Perm
        (index.hitsOf (admitsOf fun _ => .ok true) (index.cursors logf Char.isAlphanum "a")) :=
    agrees.hitsBelow_perm
  have few := length_hitsBelow_le index (fun _ => .ok true)
    (index.cursors logf Char.isAlphanum "a") Impact.maxU32
  have counted := perm.length_eq
  unfold hitsBelow at counted
  rw [isHit, length_append, Option.toList_some, length_singleton] at counted
  rcases agrees.search_spec logarithmic "a" (Impact.maxU32 + 1) none with found | ⟨_, _, _, failed, _⟩
  · rw [found, exhaustive_eq] at claimed
    have lengths := congrArg List.length (Except.ok.inj (Option.some.inj claimed))
    rw [length_take, length_take] at lengths
    unfold sortByScoreDesc at lengths
    rw [length_mergeSort, length_mergeSort, <- counted] at lengths
    simp only [Option.getD_none] at lengths
    omega
  · cases failed

theorem exists_full (last : Nat) (isLast : last = Impact.maxU32) :
    ∃ (calls : List Call) (index : Bm25Index) (texts : Corpus),
      calls.foldlM (Call.run Char.isAlphanum) new = .ok index ∧
        Agrees Char.isAlphanum (last + 1) index texts ∧ texts.size = last + 1 ∧
        texts.Uniform "a" := by
  have wide : last < 2 ^ 32 := by rw [isLast]; decide
  have narrow : last < 2 ^ 64 := wide.trans (by decide)
  have short : ∀ token ∈ tokenize Char.isAlphanum "a", Short token := by
    rw [tokens_a]
    decide +kernel
  have few : (tokenize Char.isAlphanum "a").length < 2 ^ 32 := by
    rw [tokens_a]
    decide
  have empty (id : RowId) : ¬((∅ : Corpus)[id]?).isSome := by simp
  have room : (∅ : Corpus).size + (List.range last).length ≤ last := by
    rw [Std.ExtTreeMap.size_empty, length_range, Nat.zero_add]
  obtain ⟨bounded, size, uniform, from_⟩ := bounded_uniform few short (List.range last)
    (fun id member => (mem_range.mp member).trans narrow) nodup_range
    (Corpus.uniform_empty "a") (fun id isSome => absurd isSome (empty id))
    (fun id _ => Option.not_isSome_iff_eq_none.mp (empty id)) room
  obtain ⟨index, isIndex, agrees⟩ := run_agrees _ wide agrees_new bounded
  generalize ((List.range last).map (Call.insert · "a")).foldl Call.corpus ∅ = texts at *
  have below (id : RowId) (isSome : (texts[id]?).isSome) : id < last := by
    rcases from_ id isSome with before | member
    · exact absurd before (empty id)
    · exact mem_range.mp member
  have absent : texts.contains last = false := by
    rw [Std.ExtTreeMap.contains_eq_isSome_getElem?, Bool.eq_false_iff]
    exact fun isSome => Nat.lt_irrefl last (below last isSome)
  have total : (texts.insert last "a").size = last + 1 := by
    rw [Std.ExtTreeMap.size_insert, if_neg (by rw [absent]; exact Bool.false_ne_true), size,
      Std.ExtTreeMap.size_empty, length_range, Nat.zero_add]
  have uniformNext := uniform.insert last
  refine ⟨(List.range last).map (Call.insert · "a") ++ [Call.insert last "a"],
    index.insert Char.isAlphanum last "a", texts.insert last "a", ?_, ?_, total, uniformNext⟩
  · rw [foldlM_append, isIndex]
    rfl
  · obtain ⟨holds, live, totalLength, ids⟩ := agrees
    refine Agrees.insert ⟨holds, live, totalLength, ids.trans (Nat.le_succ last)⟩ wide ?_
    refine Corpus.within_uniform uniformNext total.le (fun id isSome => ?_) few short
    rw [congrFun (getElem?_insert texts last "a") id] at isSome
    by_cases same : id = last
    · rw [same]
      exact narrow
    · rw [Function.update_of_ne same] at isSome
      exact (below id isSome).trans narrow

/-- With as many rows of one text as there are 32-bit ordinals, a search loses one. -/
theorem pruned_loses_last : ¬∀ (calls : List Call) (index : Bm25Index),
      calls.foldlM (Call.run Char.isAlphanum) new = .ok index ->
        index.search logOfOne Char.isAlphanum "a" (Impact.maxU32 + 1) none =
          some (.ok (index.exhaustive logOfOne Char.isAlphanum "a" (Impact.maxU32 + 1)
            (admitsOf fun _ => .ok true))) := by
  intro claimed
  obtain ⟨calls, index, texts, isIndex, agrees, many, uniform⟩ := exists_full _ rfl
  exact search_ne_exhaustive logarithmic_logOfOne agrees many uniform (claimed calls index isIndex)

/-! ## What the index says of its corpus -/

/-- The index is a function of its corpus, and is read back as one. -/
structure OfCorpus (isAlphanumeric : Char -> Bool) (logf : ℚ -> ℚ) (index : Bm25Index)
    (texts : Corpus) : Prop where
  live : index.live = texts.size
  totalLength : index.totalLength = texts.length isAlphanumeric
  /-- Each term's postings are the rows that mention it, with how often they do. -/
  rows : ∀ term, index.rowsOf term = texts.rows isAlphanumeric term
  frequencies : ∀ term, index.documentFrequency term = (texts.rows isAlphanumeric term).length
  /-- No posting mentions a document ordinal that can be given out again. -/
  freeDocs : ∀ ordinal ∈ index.freeDocs, ∀ slot, ∀ posting ∈ index.postingsOf slot,
    posting.doc ≠ ordinal
  /-- No posting stands under a term's ordinal that can be given out again. -/
  freeTerms : ∀ slot ∈ index.freeTerms, index.postingsOf slot = []
  /-- A term's impact bounds what each of its documents is given for it. -/
  dominated : ∀ (term : String) (slot : Nat), index.terms[term]? = some slot ->
    ∀ posting ∈ index.postingsOf slot,
      index.contributed posting.doc (idf logf index.live (index.postingsOf slot).length)
          (some posting.frequency) ≤
        (index.impactOf slot).ceiling (idf logf index.live (index.postingsOf slot).length)
          index.average
  /-- The index read back answers every search alike whose filter fails on no row. -/
  reloaded : ∃ loaded, load index.encode = .ok loaded ∧ ∀ query k filter,
    (∀ id : RowId, (texts[id]?).isSome ->
      ∃ admitted, (filter.getD fun _ => .ok true) id = .ok admitted) ->
        loaded.search logf isAlphanumeric query k filter =
          index.search logf isAlphanumeric query k filter

section

variable (agrees : Agrees isAlphanumeric Impact.maxU32 index texts)

include agrees

theorem Bm25Index.Agrees.search_eq_answers (logarithmic : Logarithmic logf) (query : String)
    (k : Nat) (filter : Option (RowId -> Except Error Bool))
    (total : ∀ id : RowId, (texts[id]?).isSome -> ∃ admitted, (filter.getD fun _ => .ok true) id =
      .ok admitted) :
    index.search logf isAlphanumeric query k filter =
      some (.ok (texts.answers logf isAlphanumeric query k
        (admitsOf (filter.getD fun _ => .ok true)))) := by
  rcases agrees.search_eq logarithmic query k filter with found | ⟨id, error, held, failed, -⟩
  · rw [found, agrees.exhaustive_eq_answers]
  · obtain ⟨admitted, isAdmitted⟩ := total id held
    rw [failed] at isAdmitted
    cases isAdmitted

theorem Bm25Index.Agrees.ofCorpus (within : texts.Within isAlphanumeric Impact.maxU32)
    (logarithmic : Logarithmic logf) :
    OfCorpus isAlphanumeric logf index texts := by
  have stores := agrees.holds.stores
  refine ⟨agrees.live, agrees.totalLength, agrees.rowsOf_eq, fun term => ?_,
    fun ordinal isFree slot => stores.not_stale isFree slot, stores.freeTerms, ?_, ?_⟩
  · rw [<- length_rowsOf, agrees.rowsOf_eq]
  · intro term slot isSlot posting member
    obtain ⟨rises, falls⟩ := stores.bounded isSlot posting member
    obtain ⟨_, counted, _, _, _, occurs, isCount⟩ := stores.row_of_posting isSlot member
    have mentions : 0 < posting.frequency := by
      rw [isCount]
      exact occurs
    exact Impact.contribution_le_ceiling (idf_nonneg logarithmic (agrees.postings_le isSlot))
      mentions rises falls
  · obtain ⟨loaded, isLoaded, agreesLoaded⟩ := agrees.reload (by decide) within
    refine ⟨loaded, isLoaded, fun query k filter total => ?_⟩
    rw [agreesLoaded.search_eq_answers logarithmic query k filter total,
      agrees.search_eq_answers logarithmic query k filter total]

end

theorem Bounded.within {calls : List Call} (within : texts.Within isAlphanumeric bound)
    (bounded : Bounded isAlphanumeric bound texts calls) :
    (calls.foldl Call.corpus texts).Within isAlphanumeric bound := by
  induction calls generalizing texts with
  | nil => exact within
  | cons call calls ih => exact ih bounded.1 bounded.2

theorem within_empty : Corpus.Within isAlphanumeric bound ∅ := by
  have empty (id : RowId) : ¬((∅ : Corpus)[id]?).isSome := by simp
  have isEmpty : (∅ : Corpus).toList = [] := Std.ExtTreeMap.toList_eq_nil_iff.mpr rfl
  refine ⟨Nat.zero_le _, ?_, fun id text held => ?_, fun id text held => ?_, fun id text held => ?_⟩
  · unfold Corpus.vocabulary
    rw [isEmpty, flatMap_nil, dedup_nil]
    decide
  all_goals exact absurd (by rw [held]; rfl) (empty id)

/-- After any churn within bounds, the index is a function of its documents. -/
theorem index_eq_corpus (isAlphanumeric : Char -> Bool) (logf : ℚ -> ℚ)
    (logarithmic : Logarithmic logf) (calls : List Call)
    (bounded : Bounded isAlphanumeric Impact.maxU32 ∅ calls) :
    ∃ index, calls.foldlM (Call.run isAlphanumeric) new = .ok index ∧
      OfCorpus isAlphanumeric logf index (calls.foldl Call.corpus ∅) := by
  obtain ⟨index, isIndex, agrees⟩ := run_agrees calls (by decide) agrees_new bounded
  exact ⟨index, isIndex, agrees.ofCorpus (bounded.within within_empty) logarithmic⟩

/-- A row is inserted, inserted again and saved, and the index is that of the one text. -/
theorem index_eq_corpus_again : ∃ index, [Call.insert 7 "a", Call.insert 7 "a", Call.reload].foldlM
        (Call.run Char.isAlphanum) new = .ok index ∧
      OfCorpus Char.isAlphanum logOfOne index
        ([Call.insert 7 "a", Call.insert 7 "a", Call.reload].foldl Call.corpus ∅) := by
  have one : Corpus.Within Char.isAlphanum Impact.maxU32 ((∅ : Corpus).insert 7 "a") :=
    (bounded_uniform (by rw [tokens_a]; decide) (by rw [tokens_a]; decide +kernel) [7] (by decide)
      (by decide) (Corpus.uniform_empty "a") (by simp) (by simp) (by simp [Impact.maxU32])).1.1
  have same : ((∅ : Corpus).insert 7 "a").insert 7 "a" = (∅ : Corpus).insert 7 "a" := by
    refine Std.ExtTreeMap.ext_getElem? fun id => ?_
    rw [Std.ExtTreeMap.getElem?_insert]
    split
    · next isRow => rw [Std.ExtTreeMap.getElem?_insert, if_pos isRow]
    · rfl
  have again : Corpus.Within Char.isAlphanum Impact.maxU32
      (((∅ : Corpus).insert 7 "a").insert 7 "a") := by
    rw [same]
    exact one
  exact index_eq_corpus Char.isAlphanum logOfOne logarithmic_logOfOne
    [Call.insert 7 "a", Call.insert 7 "a", Call.reload] ⟨one, again, again, trivial⟩

/-! ## A text of 2^32 tokens -/

/-- A text of one token, some times over. -/
def repeated (times : Nat) : String :=
  String.ofList (List.replicate times ['a', ' ']).flatten

theorem length_tokenize_repeated (times : Nat) :
    (tokenize Char.isAlphanum (repeated times)).length = times := by
  unfold tokenize repeated
  rw [length_map, String.toList_ofList]
  induction times with
  | zero => rfl
  | succ times ih =>
    have letter : Char.isAlphanum 'a' = true := by decide
    have space : Char.isAlphanum ' ' = false := by decide
    rw [replicate_succ, flatten_cons, cons_append, cons_append,
      nil_append, splitOnP_cons_eq_if_modifyHead, splitOnP_cons_eq_if_modifyHead]
    simp only [letter, space, Bool.not_true, Bool.not_false, Bool.false_eq_true, if_false, if_true,
      modifyHead_cons]
    rw [filter_cons_of_pos (by simp), length_cons, ih]

theorem sameDocs_termFor (index : Bm25Index) (term : String) :
    SameDocs index (index.termFor term).1 := by
  unfold termFor
  split
  · exact ⟨rfl, rfl, rfl, rfl, rfl, rfl, rfl⟩
  · split
    all_goals exact ⟨rfl, rfl, rfl, rfl, rfl, rfl, rfl⟩

theorem sameDocs_foldl_countToken (index : Bm25Index) (counts : Std.ExtTreeMap Nat Nat)
    (tokens : List String) : SameDocs index (tokens.foldl countToken (index, counts)).1 := by
  induction tokens generalizing index counts with
  | nil => exact ⟨rfl, rfl, rfl, rfl, rfl, rfl, rfl⟩
  | cons token tokens ih =>
    exact (sameDocs_termFor index token).trans (ih _ _)

theorem kept_foldl_enterTerm (index : Bm25Index) (doc length : Nat) (entries : List (Nat × Nat)) :
    (entries.foldl (enterTerm doc length) index).ordinals = index.ordinals ∧
      (entries.foldl (enterTerm doc length) index).lengths = index.lengths ∧
      (entries.foldl (enterTerm doc length) index).totalLength = index.totalLength := by
  induction entries generalizing index with
  | nil => exact ⟨rfl, rfl, rfl⟩
  | cons entry entries ih => exact ih (enterTerm doc length index entry)

theorem totalLength_remove_insert (isAlphanumeric : Char -> Bool) (id : RowId) (text : String) :
    ((new.insert isAlphanumeric id text).remove id).totalLength =
      (tokenize isAlphanumeric text).length - asU32 (tokenize isAlphanumeric text).length := by
  have nothing : new.remove id = new := by
    unfold Bm25Index.remove
    have absent : new.ordinals[id]? = none := by simp [new]
    rw [absent]
  obtain ⟨ids, ordinals, lengths, docTerms, freeDocs, live, total⟩ :=
    sameDocs_foldl_countToken new ∅ (tokenize isAlphanumeric text)
  have isInsert : ∃ (placed : Bm25Index) (entries : List (Nat × Nat)),
      new.insert isAlphanumeric id text =
        entries.foldl (enterTerm 0 (asU32 (tokenize isAlphanumeric text).length)) placed ∧
      placed.ordinals = (∅ : Std.ExtTreeMap RowId Nat).insert id 0 ∧
      placed.lengths = [asU32 (tokenize isAlphanumeric text).length] ∧
      placed.totalLength = (tokenize isAlphanumeric text).length := by
    unfold Bm25Index.insert
    rw [nothing]
    dsimp only
    generalize ((tokenize isAlphanumeric text).foldl countToken (new, ∅)).2.toList = entries
    generalize ((tokenize isAlphanumeric text).foldl countToken (new, ∅)).1 = named at *
    have isOrdinal : named.ordinalFor id = ({ named with
        ids := named.ids ++ [id]
        lengths := named.lengths ++ [0]
        docTerms := named.docTerms ++ [[]]
        ordinals := named.ordinals.insert id (asU32 named.ids.length) },
        asU32 named.ids.length) := by
      have absent : named.ordinals[id]? = none := by
        rw [ordinals]
        simp [new]
      unfold ordinalFor
      rw [absent, freeDocs]
      rfl
    simp only [isOrdinal]
    rw [ids]
    exact ⟨_, _, rfl, by rw [ordinals]; rfl, by rw [lengths]; rfl, by rw [total]; exact Nat.zero_add _⟩
  obtain ⟨placed, entries, isInsert, isPlaced, isLengths, isTotal⟩ := isInsert
  obtain ⟨sameOrdinals, sameLengths, sameTotal⟩ :=
    kept_foldl_enterTerm placed 0 (asU32 (tokenize isAlphanumeric text).length) entries
  rw [<- isInsert] at sameOrdinals sameLengths sameTotal
  have isOrdinal : (new.insert isAlphanumeric id text).ordinals[id]? = some 0 := by
    rw [sameOrdinals, isPlaced]
    exact Std.ExtTreeMap.getElem?_insert_self
  rw [remove_eq isOrdinal]
  show (new.insert isAlphanumeric id text).totalLength -
    (new.insert isAlphanumeric id text).lengthOf 0 = _
  unfold lengthOf
  rw [sameTotal, sameLengths, isTotal, isLengths]
  rfl

/-- A text of 2^32 tokens is inserted and removed, and its tokens stay counted. -/
theorem index_counts_removed : ¬∀ (calls : List Call) (index : Bm25Index),
      calls.foldlM (Call.run Char.isAlphanum) new = .ok index ->
        index.totalLength = (calls.foldl Call.corpus ∅).length Char.isAlphanum := by
  intro claimed
  have same := claimed [Call.insert 0 (repeated (2 ^ 32)), Call.remove 0] _ rfl
  have none_ : (((∅ : Corpus).insert 0 (repeated (2 ^ 32))).erase 0) = ∅ := by
    rw [Corpus.erase_insert]
    exact Std.ExtTreeMap.erase_empty
  have isEmpty : (∅ : Corpus).toList = [] := Std.ExtTreeMap.toList_eq_nil_iff.mpr rfl
  have counted := totalLength_remove_insert Char.isAlphanum 0 (repeated (2 ^ 32))
  rw [length_tokenize_repeated] at counted
  have removed : Corpus.length Char.isAlphanum
      (((∅ : Corpus).insert 0 (repeated (2 ^ 32))).erase 0) = 0 := by
    rw [none_]
    unfold Corpus.length
    rw [isEmpty]
    rfl
  have wrong := counted.symm.trans (same.trans removed)
  exact absurd wrong (by decide)

end InlaySql.Bm25
