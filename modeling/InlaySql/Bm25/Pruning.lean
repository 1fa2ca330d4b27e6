import InlaySql.Bm25.Walking

/-!
# A search drops no hit

Everything before the walk has been offered, or could not beat the weakest hit. A document that
only demoted terms mention scores at most their headroom, which is below the threshold; the
threshold only rises.
-/

namespace InlaySql.Bm25

open List Option Lib Sql Bm25Index

/-! ## The threshold -/

theorem Scored.score_le {one other : Scored} (atMost : one ≤ other) : other.score ≤ one.score := by
  rcases atMost.lt_or_eq with less | rfl
  · rcases Scored.lt_iff.mp less with lower | ⟨same, _⟩
    · exact lower.le
    · exact same.ge
  · exact le_refl _

namespace TopK

variable {top : TopK} {offered : List Scored} {least : ℚ}

theorem Best.threshold_mono (best : top.Best offered) (isThreshold : top.threshold = some least)
    (hit : Scored) : ∃ raised, (top.offer hit).threshold = some raised ∧ least ≤ raised := by
  obtain ⟨foremost, sorted⟩ := best
  unfold TopK.threshold at isThreshold ⊢
  split at isThreshold
  · cases isThreshold
  · next full =>
      unfold TopK.offer
      rw [if_neg full]
      cases held : top.hits with
      | nil =>
        rw [held] at isThreshold
        cases isThreshold
      | cons weakest others =>
        rw [held] at isThreshold sorted full
        cases isThreshold
        by_cases better : weakestCmp hit weakest = .lt
        · simp only [if_pos better]
          have perm := push_perm hit others
          have isFull : ¬(push hit others).length < top.k := by
            rw [perm.length_eq]
            exact full
          obtain ⟨worst, rest, isPushed⟩ := exists_cons_of_ne_nil
            (ne_nil_of_mem (perm.mem_iff.mpr mem_cons_self))
          refine ⟨worst.score, ?_, ?_⟩
          · rw [isPushed] at isFull
            simp only [isPushed, if_neg isFull, head?_cons, map_some]
          · have member : worst ∈ hit :: others := by
              rw [<- perm.mem_iff, isPushed]
              exact mem_cons_self
            rcases mem_cons.mp member with rfl | isOther
            · exact Scored.score_le (weakestCmp_eq_lt.mp better).le
            · exact Scored.score_le (rel_of_pairwise_cons sorted isOther)
        · simp only [if_neg better]
          exact ⟨weakest.score, by simp only [if_neg full, held, head?_cons, map_some], le_refl _⟩

end TopK

/-! ## Headroom -/

theorem getElem?_scanl (numbers : List ℚ) (start : ℚ) (position : Nat)
    (inside : position ≤ numbers.length) :
    (numbers.scanl (· + ·) start)[position]? = some (start + (numbers.take position).sum) := by
  induction numbers generalizing start position with
  | nil =>
    obtain rfl : position = 0 := by simpa using inside
    simp
  | cons number numbers ih =>
    cases position with
    | zero => simp
    | succ position =>
      rw [length_cons] at inside
      rw [scanl_cons, getElem?_cons_succ, ih _ _ (by omega), take_succ_cons, sum_cons, add_assoc]

theorem demote_spec (headroom : List ℚ) (threshold : ℚ) (left demoted : Nat) :
    demoted ≤ demote headroom threshold left demoted ∧
      demote headroom threshold left demoted ≤ demoted + left ∧
      (demote headroom threshold left demoted = demoted ∨
        ∃ room, headroom[demote headroom threshold left demoted]? = some room ∧
          room < threshold) := by
  induction left generalizing demoted with
  | zero => exact ⟨le_refl _, le_refl _, .inl rfl⟩
  | succ left ih =>
    unfold demote
    split
    · next below =>
        obtain ⟨atLeast, atMost, last⟩ := ih (demoted + 1)
        refine ⟨by omega, by omega, .inr ?_⟩
        rcases last with same | deeper
        · rw [same]
          obtain ⟨room, isRoom, isBelow⟩ := (Option.any_eq_true _ _).mp below
          exact ⟨room, isRoom, of_decide_eq_true isBelow⟩
        · exact deeper
    · exact ⟨le_refl _, Nat.le_add_right _ _, .inl rfl⟩

/-! ## What a search finds -/

/-- A row is admitted if the filter says so. -/
def admitsOf (filter : RowId -> Except Error Bool) (id : RowId) : Bool :=
  (filter id).toOption.getD false

/-- A walk's postings mention a document. -/
def TermWalk.Mentions (walk : TermWalk) (doc : Nat) : Prop :=
  ∃ posting ∈ walk.postings, posting.doc = doc

instance (walk : TermWalk) (doc : Nat) : Decidable (walk.Mentions doc) :=
  List.decidableBEx _ _

namespace Bm25Index

variable {index : Bm25Index} {filter : RowId -> Except Error Bool} {initial : List TermWalk}
  {doc point demoted : Nat}

/-- What a walk contributes to a document. -/
def shareOf (index : Bm25Index) (doc : Nat) (walk : TermWalk) : ℚ :=
  index.contributed doc walk.idf ((walk.postings.find? (·.doc = doc)).map (·.frequency))

/-- The hit of a document, if a walk mentions it and its row is admitted. -/
def hitOf (index : Bm25Index) (filter : RowId -> Except Error Bool) (initial : List TermWalk)
    (doc : Nat) : Option Scored :=
  let id := (index.ids[doc]?).getD 0
  if admitsOf filter id = true ∧ ∃ walk ∈ initial, walk.Mentions doc then
    some ⟨id, index.scoreOf initial doc⟩
  else none

/-- The hits before a point. -/
def hitsBelow (index : Bm25Index) (filter : RowId -> Except Error Bool) (initial : List TermWalk) :
    Nat -> List Scored
  | 0 => []
  | doc + 1 => (index.hitOf filter initial doc).toList ++ index.hitsBelow filter initial doc

/-- The walks a search starts with: their postings ascend, and their ceilings bound what they
contribute. -/
structure Started (index : Bm25Index) (initial : List TermWalk) : Prop where
  sorted : ∀ walk ∈ initial, walk.postings.Pairwise (·.doc < ·.doc)
  bounded : ∀ walk ∈ initial, ∀ doc, index.shareOf doc walk ≤ walk.ceiling

theorem shareOf_eq_zero {walk : TermWalk} (unmentioned : ¬walk.Mentions doc) :
    index.shareOf doc walk = 0 := by
  have unfound : walk.postings.find? (·.doc = doc) = none := by
    rw [find?_eq_none]
    intro posting member
    simp only [decide_eq_true_eq]
    intro same
    exact unmentioned ⟨posting, member, same⟩
  unfold shareOf
  rw [unfound]
  rfl

theorem orderOf_perm (initial : List TermWalk) :
    (orderOf initial).Perm (List.range initial.length) :=
  mergeSort_perm _ _

theorem scoreOf_eq_sum {order : List Nat} (perm : order.Perm (List.range initial.length)) :
    index.scoreOf initial doc =
      (order.map fun term => ((initial[term]?).map (index.shareOf doc)).getD 0).sum := by
  rw [(perm.map _).sum_eq]
  have isList : initial.map (index.shareOf doc) =
      (List.range initial.length).map fun term => ((initial[term]?).map (index.shareOf doc)).getD 0 := by
    refine ext_getElem (by simp) fun term inside _ => ?_
    rw [length_map] at inside
    simp [inside]
  rw [<- isList]
  rfl

section

variable (started : index.Started initial)

include started

theorem Started.scoreOf_le {order : List Nat} (perm : order.Perm (List.range initial.length))
    (idle : ∀ term ∈ order.drop demoted, ∀ walk, initial[term]? = some walk -> ¬walk.Mentions doc) :
    index.scoreOf initial doc ≤
      ((order.take demoted).map fun term => ((initial[term]?).map (·.ceiling)).getD 0).sum := by
  have inside {term : Nat} (member : term ∈ order) : term < initial.length :=
    mem_range.mp (perm.mem_iff.mp member)
  rw [scoreOf_eq_sum perm]
  conv_lhs => rw [<- take_append_drop demoted order, map_append, sum_append]
  have rest : ((order.drop demoted).map fun term =>
      ((initial[term]?).map (index.shareOf doc)).getD 0).sum = 0 := by
    refine sum_eq_zero fun share member => ?_
    obtain ⟨term, isTerm, rfl⟩ := List.mem_map.mp member
    have isWalk := getElem?_eq_getElem (inside (mem_of_mem_drop isTerm))
    rw [isWalk, map_some, getD_some]
    exact shareOf_eq_zero (idle term isTerm _ isWalk)
  rw [rest, add_zero]
  refine sum_le_sum fun term isTerm => ?_
  have isWalk := getElem?_eq_getElem (inside (mem_of_mem_take isTerm))
  rw [isWalk, map_some, map_some, getD_some, getD_some]
  exact started.bounded _ (getElem_mem _) doc

theorem Started.visit_eq (before : point ≤ doc) : index.visit (initial.map (·.standing point)) doc =
      (initial.map (·.standing (doc + 1)), index.scoreOf initial doc) := by
  unfold visit scoreOf
  rw [List.map_map, List.map_map]
  refine Prod.ext (map_congr_left fun walk member => ?_)
    (congrArg List.sum (map_congr_left fun walk member => ?_))
  · simp only [Function.comp_apply, TermWalk.seek_standing (started.sorted walk member) before]
  · simp only [Function.comp_apply, TermWalk.seek_standing (started.sorted walk member) before]
    rfl

/-- The next document from a point: no driving walk mentions one before it, and one mentions it
unless there is none. -/
theorem Started.nextDoc (driving : List Nat) (point : Nat) :
    (∀ doc, point ≤ doc -> doc < nextDoc (initial.map (·.standing point)) driving ->
        ∀ term ∈ driving, ∀ walk, initial[term]? = some walk -> ¬walk.Mentions doc) ∧
      (nextDoc (initial.map (·.standing point)) driving ≠ Impact.maxU32 ->
        point ≤ nextDoc (initial.map (·.standing point)) driving ∧
          nextDoc (initial.map (·.standing point)) driving < Impact.maxU32 ∧
          ∃ walk ∈ initial, walk.Mentions (nextDoc (initial.map (·.standing point)) driving)) := by
  obtain ⟨atMost, least, attained⟩ := nextDoc_spec (initial.map (·.standing point)) driving
  constructor
  · rintro doc beyond isBefore term isDriving walk isWalk ⟨posting, member, rfl⟩
    obtain ⟨parked, isParked, atMostDoc⟩ := (TermWalk.current_standing
      (started.sorted walk (mem_of_getElem? isWalk)) point).2 posting member beyond
    have isLeast := least term isDriving parked (by
      rw [getElem?_map, isWalk]
      exact isParked)
    omega
  · intro some_
    obtain ⟨term, isDriving, isParked⟩ := attained some_
    rw [getElem?_map] at isParked
    cases isWalk : initial[term]? with
    | none =>
      rw [isWalk] at isParked
      cases isParked
    | some walk =>
      rw [isWalk] at isParked
      have member := mem_of_getElem? isWalk
      obtain ⟨beyond, mentions⟩ :=
        (TermWalk.current_standing (started.sorted walk member) point).1 _ isParked
      exact ⟨beyond, by omega, walk, member, mentions⟩

end

/-- How many postings the walks still have from a point on. -/
def remaining (initial : List TermWalk) (point : Nat) : Nat :=
  (initial.map fun walk => (walk.postings.filter (point ≤ ·.doc)).length).sum

theorem remaining_lt (before : point ≤ doc) (mentioned : ∃ walk ∈ initial, walk.Mentions doc) :
    remaining initial (doc + 1) < remaining initial point := by
  have fewer (walk : TermWalk) : (walk.postings.filter (doc + 1 ≤ ·.doc)).length ≤
      (walk.postings.filter (point ≤ ·.doc)).length := by
    refine (monotone_filter_right _ fun posting isLater => ?_).length_le
    simp only [decide_eq_true_eq] at isLater ⊢
    omega
  obtain ⟨walk, member, posting, isPosting, same⟩ := mentioned
  refine sum_lt_sum _ _ (fun walk _ => fewer walk) ⟨walk, member, ?_⟩
  have both : walk.postings.filter (doc + 1 ≤ ·.doc) =
      (walk.postings.filter (point ≤ ·.doc)).filter (doc + 1 ≤ ·.doc) := by
    rw [List.filter_filter]
    refine filter_congr fun other _ => ?_
    by_cases isLater : doc + 1 ≤ other.doc
    · have isAfter : point ≤ other.doc := by omega
      simp [isLater, isAfter]
    · simp [isLater]
  rw [both]
  refine length_filter_lt_length_iff_exists.mpr ⟨posting, ?_, ?_⟩
  · rw [mem_filter, decide_eq_true_eq]
    exact ⟨isPosting, by omega⟩
  · simp only [decide_eq_true_eq]
    omega

/-- How far a search has come: what is before the point has been offered or is not needed, and
what only demoted walks mention cannot beat the weakest hit. -/
structure Going (index : Bm25Index) (filter : RowId -> Except Error Bool)
    (initial : List TermWalk) (order : List Nat) (point demoted : Nat) (best : TopK) : Prop where
  kept : best.Best (index.hitsBelow filter initial point)
  inside : point ≤ Impact.maxU32
  few : demoted ≤ order.length
  idle : demoted = 0 ∨ ∃ threshold room, best.threshold = some threshold ∧
    (headroomOf initial order)[demoted]? = some room ∧ room < threshold

variable {order : List Nat} {best : TopK}

theorem Going.advance (going : index.Going filter initial order point demoted best)
    (started : index.Started initial) (perm : order.Perm (List.range initial.length)) (stop : Nat)
    (beyond : point ≤ stop)
    (idle : ∀ doc, point ≤ doc -> doc < stop -> ∀ term ∈ order.drop demoted, ∀ walk,
      initial[term]? = some walk -> ¬walk.Mentions doc) :
    best.Best (index.hitsBelow filter initial stop) := by
  induction stop, beyond using Nat.le_induction with
  | base => exact going.kept
  | succ stop beyond ih =>
    have before := ih fun doc isAfter isBefore => idle doc isAfter (by omega)
    have unneeded := idle stop beyond (Nat.lt_succ_self stop)
    unfold hitsBelow
    cases isHit : index.hitOf filter initial stop with
    | none => exact before
    | some hit =>
      unfold hitOf at isHit
      dsimp only at isHit
      split at isHit
      · next wanted =>
          cases isHit
          rcases going.idle with rfl | ⟨threshold, room, isThreshold, isRoom, below⟩
          · -- no walk is demoted, so none mentions the document
            obtain ⟨walk, member, mentions⟩ := wanted.2
            obtain ⟨term, inside, isWalk⟩ := mem_iff_getElem.mp member
            have isTerm : term ∈ order.drop 0 := by
              rw [drop_zero, perm.mem_iff, mem_range]
              exact inside
            exact absurd mentions (unneeded term isTerm walk (isWalk ▸ getElem?_eq_getElem inside))
          · refine before.pass isThreshold (lt_of_le_of_lt (started.scoreOf_le perm unneeded) ?_)
            unfold headroomOf at isRoom
            rw [getElem?_scanl _ _ _ (by rw [length_map]; exact going.few), zero_add,
              <- map_take] at isRoom
            rw [Option.some.inj isRoom]
            exact below
      · cases isHit

/-- How a search ends: with the best hits, or with the error of the filter on a mentioned row. -/
def Outcome (index : Bm25Index) (filter : RowId -> Except Error Bool) (initial : List TermWalk)
    (k : Nat) (result : Option (Except Error TopK)) : Prop :=
  (∃ top, result = some (.ok top) ∧
    top.Best (index.hitsBelow filter initial Impact.maxU32) ∧ top.k = k) ∨
  ∃ doc error, (∃ walk ∈ initial, walk.Mentions doc) ∧
    filter ((index.ids[doc]?).getD 0) = .error error ∧ result = some (.error error)

theorem hitsBelow_of_refused (refused : admitsOf filter ((index.ids[doc]?).getD 0) = false) :
    index.hitsBelow filter initial (doc + 1) = index.hitsBelow filter initial doc := by
  have isNone : index.hitOf filter initial doc = none := by
    unfold hitOf
    dsimp only
    rw [refused]
    simp
  conv_lhs => unfold hitsBelow
  rw [isNone]
  rfl

theorem hitsBelow_of_admitted (admitted : admitsOf filter ((index.ids[doc]?).getD 0) = true)
    (mentioned : ∃ walk ∈ initial, walk.Mentions doc) :
    index.hitsBelow filter initial (doc + 1) =
      ⟨(index.ids[doc]?).getD 0, index.scoreOf initial doc⟩ ::
        index.hitsBelow filter initial doc := by
  have isHit : index.hitOf filter initial doc =
      some ⟨(index.ids[doc]?).getD 0, index.scoreOf initial doc⟩ := if_pos ⟨admitted, mentioned⟩
  conv_lhs => unfold hitsBelow
  rw [isHit]
  rfl

theorem Going.walk (started : index.Started initial)
    (perm : order.Perm (List.range initial.length)) (fuel : Nat)
    (going : index.Going filter initial order point demoted best)
    (enough : remaining initial point < fuel) :
    index.Outcome filter initial best.k (index.walk filter order (headroomOf initial order) fuel
      (initial.map (·.standing point)) demoted best) := by
  induction fuel generalizing point demoted best with
  | zero => exact absurd enough (Nat.not_lt_zero _)
  | succ fuel ih =>
    obtain ⟨unneeded, isNext⟩ := started.nextDoc (order.drop demoted) point
    unfold Bm25Index.walk
    dsimp only
    generalize nextDoc (initial.map (·.standing point)) (order.drop demoted) = next at *
    by_cases ended : next = Impact.maxU32
    · rw [if_pos ended]
      subst ended
      exact .inl ⟨best, rfl, going.advance started perm _ going.inside unneeded, rfl⟩
    rw [if_neg ended]
    obtain ⟨beyond, inside, mentioned⟩ := isNext ended
    have passed := going.advance started perm next beyond unneeded
    have fewer := remaining_lt beyond mentioned
    cases isFilter : filter ((index.ids[next]?).getD 0) with
    | error error => exact .inr ⟨next, error, mentioned, isFilter, rfl⟩
    | ok admitted =>
      have isAdmitted : admitsOf filter ((index.ids[next]?).getD 0) = admitted := by
        unfold admitsOf
        rw [isFilter]
        rfl
      rw [started.visit_eq beyond]
      dsimp only
      by_cases refused : admitted = false
      · rw [if_pos (by rw [refused]; rfl)]
        refine ih ⟨?_, inside, going.few, going.idle⟩ (by omega)
        rw [hitsBelow_of_refused (isAdmitted.trans refused)]
        exact passed
      rw [if_neg (by simpa using refused)]
      obtain ⟨offered, sameK⟩ :=
        passed.offer ⟨(index.ids[next]?).getD 0, index.scoreOf initial next⟩
      rw [<- hitsBelow_of_admitted (isAdmitted.trans (by simpa using refused)) mentioned] at offered
      generalize isOffer :
        best.offer ⟨(index.ids[next]?).getD 0, index.scoreOf initial next⟩ = more at *
      rw [<- sameK]
      cases isThreshold : more.threshold with
      | none =>
        have none_ : demoted = 0 := by
          rcases going.idle with none_ | ⟨threshold, room, had, -⟩
          · exact none_
          · obtain ⟨raised, isRaised, -⟩ := passed.threshold_mono had
              ⟨(index.ids[next]?).getD 0, index.scoreOf initial next⟩
            rw [isOffer, isThreshold] at isRaised
            cases isRaised
        exact ih ⟨offered, inside, going.few, .inl none_⟩ (by omega)
      | some threshold =>
        dsimp only
        obtain ⟨atLeast, atMost, last⟩ :=
          demote_spec (headroomOf initial order) threshold (order.length - demoted) demoted
        have few := going.few
        generalize demote (headroomOf initial order) threshold (order.length - demoted)
          demoted = deeper at *
        have goingOn : index.Going filter initial order (next + 1) deeper more := by
          refine ⟨offered, inside, by omega, ?_⟩
          rcases last with same | ⟨room, isRoom, below⟩
          · subst same
            refine going.idle.imp_right fun ⟨before, room, had, isRoom, below⟩ => ?_
            obtain ⟨raised, isRaised, rises⟩ := passed.threshold_mono had
              ⟨(index.ids[next]?).getD 0, index.scoreOf initial next⟩
            rw [isOffer, isThreshold] at isRaised
            cases isRaised
            exact ⟨threshold, room, isThreshold, isRoom, below.trans_le rises⟩
          · exact .inr ⟨threshold, room, isThreshold, isRoom, below⟩
        by_cases all : deeper = order.length
        · rw [if_pos all]
          refine .inl ⟨more, rfl, goingOn.advance started perm _ goingOn.inside ?_, rfl⟩
          intro doc _ _ term isDriving
          rw [all, drop_length] at isDriving
          cases isDriving
        · rw [if_neg all]
          exact ih goingOn (by omega)

end Bm25Index

end InlaySql.Bm25
