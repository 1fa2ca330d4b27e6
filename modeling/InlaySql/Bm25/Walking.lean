import InlaySql.Bm25.Search
import InlaySql.Bm25.Postings
import InlaySql.Lib.Foremost
import InlaySql.Lib.Fronts

/-!
# One step of a search

A walk over sorted postings that has passed the documents before a point still has those from
there on; seeking a document passes it and reports its frequency. The next document is the least
one a driving walk still has, and a term is demoted only below the threshold.
-/

namespace InlaySql.Bm25

open List Option Lib Sql

/-! ## Hits in order -/

/-- The better hit is less: a higher score, and of equal scores the lower row id. -/
instance : LinearOrder Scored :=
  LinearOrder.lift' (fun scored => toLex (-scored.score, scored.id)) fun one other same => by
    obtain ⟨scores, ids⟩ := Prod.mk.inj (toLex.injective same)
    cases one
    cases other
    exact congrArg₂ Scored.mk ids (neg_injective scores)

variable {one other : Scored}

theorem Scored.lt_iff :
    one < other ↔ other.score < one.score ∨ one.score = other.score ∧ one.id < other.id := by
  refine (Prod.Lex.toLex_lt_toLex (x := (-one.score, one.id)) (y := (-other.score, other.id))).trans ?_
  rw [neg_lt_neg_iff, neg_inj]

theorem weakestCmp_eq_lt : weakestCmp one other = .lt ↔ one < other := by
  rw [weakestCmp, Ordering.then_eq_lt, compare_lt_iff_lt, compare_eq_iff_eq, compare_lt_iff_lt,
    Scored.lt_iff, eq_comm]

theorem weakestCmp_isLE : (weakestCmp one other).isLE = decide (one ≤ other) := by
  have swapped : weakestCmp one other = .gt ↔ other < one := by
    rw [weakestCmp, Ordering.then_eq_gt, compare_gt_iff_gt, compare_eq_iff_eq, compare_gt_iff_gt,
      Scored.lt_iff]
  rw [Bool.eq_iff_iff, decide_eq_true_eq, <- not_lt, <- swapped]
  cases weakestCmp one other <;> simp

theorem sortByScoreDesc_eq (scores : List Scored) :
    sortByScoreDesc scores = scores.mergeSort fun left right => decide (left ≤ right) := by
  simp only [sortByScoreDesc, weakestCmp_isLE]

namespace TopK

variable (hit : Scored)

theorem push_eq (hits : List Scored) : push hit hits = hits.orderedInsert (· ≥ ·) hit := by
  induction hits with
  | nil => rfl
  | cons first hits ih =>
    have step : push hit (first :: hits) =
        if (weakestCmp first hit).isLE then hit :: first :: hits else first :: push hit hits := rfl
    rw [step, ih, orderedInsert_cons]
    simp only [weakestCmp_isLE, decide_eq_true_eq, ge_iff_le]

theorem push_perm (hits : List Scored) : (push hit hits).Perm (hit :: hits) :=
  perm_orderedInsert _ hit hits

theorem sorted_push {hits : List Scored} (sorted : hits.Pairwise (· ≥ ·)) :
    (push hit hits).Pairwise (· ≥ ·) := by
  rw [push_eq]
  exact sorted.orderedInsert hit hits

/-- The heap holds the best of the hits offered. -/
structure Best (top : TopK) (offered : List Scored) : Prop where
  foremost : Foremost top.k top.hits offered
  sorted : top.hits.Pairwise (· ≥ ·)

variable {top : TopK} {offered : List Scored}

section

variable (best : top.Best offered)

include best

theorem Best.offer (hit : Scored) :
    (top.offer hit).Best (hit :: offered) ∧ (top.offer hit).k = top.k := by
  obtain ⟨foremost, sorted⟩ := best
  unfold TopK.offer
  by_cases room : top.hits.length < top.k
  · rw [if_pos room]
    exact ⟨⟨(foremost.take room).perm (push_perm hit top.hits).symm (.refl _),
      sorted_push hit sorted⟩, rfl⟩
  · rw [if_neg room]
    have full : top.hits.length = top.k := le_antisymm foremost.few (Nat.le_of_not_lt room)
    cases held : top.hits with
    | nil =>
      refine ⟨⟨?_, sorted⟩, rfl⟩
      refine foremost.pass full ?_
      simp [held]
    | cons weakest others =>
      rw [held] at foremost sorted full
      obtain ⟨least, rest⟩ := pairwise_cons.mp sorted
      by_cases better : weakestCmp hit weakest = .lt
      · simp only [if_pos better]
        refine ⟨⟨?_, sorted_push hit rest⟩, trivial⟩
        exact (foremost.replace full least (weakestCmp_eq_lt.mp better).le).perm
          (push_perm hit others).symm (.refl _)
      · simp only [if_neg better]
        refine ⟨⟨?_, held ▸ sorted⟩, trivial⟩
        rw [held]
        have atMost : weakest ≤ hit := not_lt.mp fun less => better (weakestCmp_eq_lt.mpr less)
        refine foremost.pass full fun one member => ?_
        rcases mem_cons.mp member with rfl | later
        · exact atMost
        · exact (least one later).trans atMost

theorem Best.pass {threshold : ℚ} (isThreshold : top.threshold = some threshold) {hit : Scored}
    (weak : hit.score < threshold) :
    top.Best (hit :: offered) := by
  obtain ⟨foremost, sorted⟩ := best
  unfold TopK.threshold at isThreshold
  split at isThreshold
  · cases isThreshold
  · rename_i room
    have full : top.hits.length = top.k := le_antisymm foremost.few (Nat.le_of_not_lt room)
    refine ⟨foremost.pass full fun one member => ?_, sorted⟩
    cases held : top.hits with
    | nil =>
      rw [held] at member
      cases member
    | cons weakest others =>
      rw [held] at isThreshold member sorted
      cases isThreshold
      have atMost : one ≤ weakest := by
        rcases mem_cons.mp member with rfl | later
        · exact le_refl one
        · exact rel_of_pairwise_cons sorted later
      exact atMost.trans (Scored.lt_iff.mpr (.inl weak)).le

theorem Best.intoRanked : top.intoRanked = (sortByScoreDesc offered).take top.k := by
  rw [TopK.intoRanked, sortByScoreDesc_eq, sortByScoreDesc_eq]
  exact best.foremost.mergeSort_eq_take

end

end TopK

namespace TermWalk

variable {walk : TermWalk} {point doc : Nat}

/-- The walk when it has passed the documents before a point. -/
def standing (self : TermWalk) (point : Nat) : TermWalk :=
  { self with position := (self.postings.takeWhile (·.doc < point)).length }

theorem gallop_reaches (remaining : List Posting) (doc fuel window : Nat) (some_ : 0 < window)
    (enough : remaining.length ≤ window * 2 ^ fuel) :
    (remaining.takeWhile (·.doc < doc)).length ≤ gallop remaining doc fuel window := by
  have few : (remaining.takeWhile (·.doc < doc)).length ≤ remaining.length :=
    (takeWhile_sublist _).length_le
  induction fuel generalizing window with
  | zero =>
    rw [pow_zero, mul_one] at enough
    exact few.trans enough
  | succ fuel ih =>
    unfold gallop
    split
    · refine ih (window * 2) (by omega) ?_
      rw [pow_succ] at enough
      rwa [mul_assoc, mul_comm 2]
    · next stops =>
        by_cases inside : window < remaining.length
        · have isLast := getElem?_eq_getElem (show window - 1 < remaining.length by omega)
          rw [isLast, any_some] at stops
          have fails : decide (remaining[window - 1].doc < doc) = false := by
            simpa [inside] using stops
          exact (Fronts.length_takeWhile_le isLast fails).trans (Nat.sub_le window 1)
        · exact few.trans (Nat.le_of_not_lt inside)

theorem seek_position (walk : TermWalk) (before : point ≤ doc) :
    (walk.standing point).position + (((walk.postings.drop (walk.standing point).position).take
        (gallop (walk.postings.drop (walk.standing point).position) doc
          (walk.postings.drop (walk.standing point).position).length 1)).takeWhile
            (·.doc < doc)).length = (walk.postings.takeWhile (·.doc < doc)).length := by
  have reaches := gallop_reaches (walk.postings.drop (walk.standing point).position) doc
    (walk.postings.drop (walk.standing point).position).length 1 Nat.one_pos
    (by rw [one_mul]; exact Nat.lt_two_pow_self.le)
  rw [Fronts.takeWhile_take reaches]
  unfold standing
  have implies (posting : Posting) (isBefore : decide (posting.doc < point) = true) :
      decide (posting.doc < doc) = true :=
    decide_eq_true ((of_decide_eq_true isBefore).trans_le before)
  rw [Fronts.drop_length_takeWhile, Fronts.takeWhile_eq_append implies walk.postings, length_append]

section

variable (sorted : walk.postings.Pairwise (·.doc < ·.doc))

include sorted

theorem postings_split (doc : Nat) :
    (∃ found, walk.postings[(walk.postings.takeWhile (·.doc < doc)).length]? = some found ∧
        found.doc = doc ∧ walk.postings.find? (·.doc = doc) = some found ∧
        (walk.postings.takeWhile (·.doc < doc + 1)).length =
          (walk.postings.takeWhile (·.doc < doc)).length + 1) ∨
      (∀ found, walk.postings[(walk.postings.takeWhile (·.doc < doc)).length]? = some found ->
        found.doc ≠ doc) ∧ walk.postings.find? (·.doc = doc) = none ∧
        walk.postings.takeWhile (·.doc < doc + 1) = walk.postings.takeWhile (·.doc < doc) := by
  have implies (posting : Posting) (isBefore : decide (posting.doc < doc) = true) :
      decide (posting.doc < doc + 1) = true :=
    decide_eq_true ((of_decide_eq_true isBefore).trans (Nat.lt_succ_self doc))
  have whole : walk.postings.takeWhile (·.doc < doc) ++ walk.postings.dropWhile (·.doc < doc) =
      walk.postings := takeWhile_append_dropWhile
  have unfound : (walk.postings.takeWhile (·.doc < doc)).find? (·.doc = doc) = none := by
    rw [find?_eq_none]
    intro posting member
    have isBefore := mem_takeWhile_imp member
    simp only [decide_eq_true_eq] at isBefore ⊢
    omega
  have search : walk.postings.find? (·.doc = doc) =
      (walk.postings.dropWhile (·.doc < doc)).find? (·.doc = doc) := by
    conv_lhs => rw [<- whole, find?_append, unfound, none_or]
  rw [<- head?_drop, Fronts.drop_length_takeWhile, search,
    Fronts.takeWhile_eq_append implies walk.postings]
  cases rest : walk.postings.dropWhile (·.doc < doc) with
  | nil => exact .inr ⟨fun found isFound => (by cases isFound), rfl, by simp⟩
  | cons found after =>
    obtain ⟨least, later⟩ := Bm25Index.dropWhile_sorted sorted rest
    by_cases same : found.doc = doc
    · refine .inl ⟨found, rfl, same, ?_, ?_⟩
      · rw [find?_cons_of_pos (by simpa using same)]
      · have last : after.takeWhile (·.doc < doc + 1) = [] := by
          cases after with
          | nil => rfl
          | cons other after =>
            have isLater := later other mem_cons_self
            rw [takeWhile_cons_of_neg (by simp only [decide_eq_true_eq]; omega)]
        rw [takeWhile_cons_of_pos (by simp only [decide_eq_true_eq]; omega), last,
          length_append, length_singleton]
    · refine .inr ⟨fun other isOther => ?_, ?_, ?_⟩
      · cases isOther
        exact same
      · rw [find?_eq_none]
        intro other member
        rcases mem_cons.mp member with rfl | isAfter
        · simpa using same
        · have isLater := later other isAfter
          simp only [decide_eq_true_eq]
          omega
      · rw [takeWhile_cons_of_neg (by simp only [decide_eq_true_eq]; omega), append_nil]

theorem seek_standing (before : point ≤ doc) : (walk.standing point).seek doc =
      ((walk.postings.find? (·.doc = doc)).map (·.frequency), walk.standing (doc + 1)) := by
  have position := seek_position walk before
  unfold seek
  have samePostings : (walk.standing point).postings = walk.postings := rfl
  simp only [samePostings, position]
  rcases postings_split sorted doc with
    ⟨found, isFound, same, isSearch, next⟩ | ⟨differs, isSearch, next⟩
  · simp only [isFound, isSearch, if_pos same, standing, next]
    rfl
  · rw [isSearch]
    split
    · next found isFound =>
        rw [if_neg (differs found isFound)]
        simp only [standing, next]
        rfl
    · simp only [standing, next]
      rfl

theorem current_standing (point : Nat) :
    (∀ doc, (walk.standing point).current = some doc -> point ≤ doc ∧
        ∃ posting ∈ walk.postings, posting.doc = doc) ∧
      ∀ posting ∈ walk.postings, point ≤ posting.doc ->
        ∃ doc, (walk.standing point).current = some doc ∧ doc ≤ posting.doc := by
  have isCurrent : (walk.standing point).current =
      ((walk.postings.dropWhile (·.doc < point)).head?).map (·.doc) := by
    unfold current standing
    rw [<- head?_drop, Fronts.drop_length_takeWhile]
  rw [isCurrent]
  have whole : walk.postings.takeWhile (·.doc < point) ++ walk.postings.dropWhile (·.doc < point) =
      walk.postings := takeWhile_append_dropWhile
  cases rest : walk.postings.dropWhile (·.doc < point) with
  | nil =>
    refine ⟨fun doc isDoc => (by cases isDoc), fun posting member beyond => ?_⟩
    rw [rest, append_nil] at whole
    rw [<- whole] at member
    have isBefore := mem_takeWhile_imp member
    simp only [decide_eq_true_eq] at isBefore
    omega
  | cons found after =>
    obtain ⟨least, later⟩ := Bm25Index.dropWhile_sorted sorted rest
    refine ⟨fun doc isDoc => ?_, fun posting member beyond => ⟨found.doc, rfl, ?_⟩⟩
    · cases isDoc
      refine ⟨least, found, ?_, rfl⟩
      rw [<- whole, rest]
      exact mem_append_right _ mem_cons_self
    · rw [<- whole, rest, mem_append] at member
      rcases member with isTaken | isRest
      · have isBefore := mem_takeWhile_imp isTaken
        simp only [decide_eq_true_eq] at isBefore
        omega
      · rcases mem_cons.mp isRest with rfl | isAfter
        · exact le_refl _
        · exact (later posting isAfter).le

end

end TermWalk

/-! ## The next document -/

theorem foldl_min_spec {given : Nat -> Option Nat} {step : Nat -> Nat -> Nat}
    (isStep : ∀ least item, step least item = (given item).elim least (min least))
    (items : List Nat) (first : Nat) :
    items.foldl step first ≤ first ∧
      (∀ item ∈ items, ∀ number, given item = some number -> items.foldl step first ≤ number) ∧
      (items.foldl step first ≠ first ->
        ∃ item ∈ items, given item = some (items.foldl step first)) := by
  induction items generalizing first with
  | nil => simp
  | cons item items ih =>
    obtain ⟨atMost, least, attained⟩ := ih (step first item)
    rw [foldl_cons]
    have later (apart : items.foldl step (step first item) ≠ step first item) :
        ∃ other ∈ item :: items, given other = some (items.foldl step (step first item)) := by
      obtain ⟨other, member, isGiven⟩ := attained apart
      exact ⟨other, mem_cons_of_mem _ member, isGiven⟩
    cases isItem : given item with
    | none =>
      have same : step first item = first := by rw [isStep, isItem, elim_none]
      refine ⟨atMost.trans same.le, fun other member number isNumber => ?_, fun apart => ?_⟩
      · rcases mem_cons.mp member with rfl | isLater
        · rw [isItem] at isNumber
          cases isNumber
        · exact least other isLater number isNumber
      · exact later (by rw [same] at apart ⊢; exact apart)
    | some number =>
      have same : step first item = min first number := by rw [isStep, isItem, elim_some]
      refine ⟨atMost.trans (same.trans_le (min_le_left _ _)), fun other member found isFound => ?_,
        fun apart => ?_⟩
      · rcases mem_cons.mp member with rfl | isLater
        · rw [isItem] at isFound
          cases isFound
          exact atMost.trans (same.trans_le (min_le_right _ _))
        · exact least other isLater found isFound
      · by_cases attains : items.foldl step (step first item) = step first item
        · rw [attains, same] at apart ⊢
          have isNumber : min first number = number :=
            (min_choice first number).resolve_left apart
          exact ⟨item, mem_cons_self, by rw [isItem, isNumber]⟩
        · exact later attains

theorem nextDoc_spec (cursors : List TermWalk) (driving : List Nat) :
    Bm25Index.nextDoc cursors driving ≤ Impact.maxU32 ∧
      (∀ term ∈ driving, ∀ doc, (cursors[term]?).bind TermWalk.current = some doc ->
        Bm25Index.nextDoc cursors driving ≤ doc) ∧
      (Bm25Index.nextDoc cursors driving ≠ Impact.maxU32 -> ∃ term ∈ driving,
        (cursors[term]?).bind TermWalk.current = some (Bm25Index.nextDoc cursors driving)) := by
  unfold Bm25Index.nextDoc
  refine foldl_min_spec (fun least term => ?_) driving Impact.maxU32
  cases (cursors[term]?).bind TermWalk.current with
  | none => rfl
  | some doc => rfl

end InlaySql.Bm25
