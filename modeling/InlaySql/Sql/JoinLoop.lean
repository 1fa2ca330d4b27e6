import InlaySql.Sql.Join

/-!
# What the pairing loops deliver

Whatever a loop tests its candidates with, it delivers, row by row, the pairs the test
keeps, and pads an outer row that has none. Where the candidates are some of the inner
rows, two loops deliver the same exactly when no pair is lost.
-/

namespace InlaySql.Sql

open List Lib

variable {δ : Type}

/-- Whether a test keeps a row. -/
def Kept (keep : Row -> Except Error Bool) (row : Row) : Bool :=
  match keep row with
  | .ok kept => kept
  | .error _ => false

/-- What one outer row contributes: its pairs, or its padding. -/
def pairAnswer (kind : JoinKind) (emit : Option Row -> δ) (matched : Bool) (kept : List Row) :
    List δ :=
  kept.map (fun row => emit (some row)) ++
    if !matched && kept.isEmpty && kind = .left then [emit none] else []

/-- What a loop over candidates should deliver. -/
def loopAnswer (kind : JoinKind) (candidates : Row -> List Row)
    (keep : Row -> Row -> Except Error Bool) (emit : ExecRow -> Option Row -> δ)
    (outers : List ExecRow) : List δ :=
  outers.flatMap fun outer =>
    pairAnswer kind (emit outer) false ((candidates outer.values).filter (Kept (keep outer.values)))

/-- A loop delivers an answer: what it delivers before an error is the beginning of it. -/
structure Delivers (delivery : Delivery δ) (answer : List δ) : Prop where
  before : delivery.rows <+: answer
  whole : delivery.failure = none -> delivery.rows = answer

section Loop

variable {kind : JoinKind}

section

variable (keep : Row -> Except Error Bool) (emit : Option Row -> δ) (matched : Bool)

include keep emit matched

theorem pairRow_delivers (rows : List Row) : Delivers (pairRow kind keep emit matched rows)
      (pairAnswer kind emit matched (rows.filter (Kept keep))) := by
  induction rows generalizing matched with
  | nil =>
    have rows : (pairRow kind keep emit matched []).rows = pairAnswer kind emit matched [] := by
      unfold pairRow pairAnswer
      cases matched <;> cases kind <;> rfl
    exact ⟨rows ▸ prefix_refl _, fun _ => rows⟩
  | cons row rest ih =>
    unfold pairRow
    cases isKept : keep row with
    | error error => exact ⟨ nil_prefix, fun failed => nomatch failed⟩
    | ok kept =>
      have kept_eq : Kept keep row = kept := by
        rw [Kept, isKept]
      cases kept with
      | true =>
        obtain ⟨before, whole⟩ := ih true
        have shape : pairAnswer kind emit matched ((row :: rest).filter (Kept keep)) =
            emit (some row) :: pairAnswer kind emit true (rest.filter (Kept keep)) := by
          simp [pairAnswer, kept_eq]
        rw [shape]
        exact ⟨cons_prefix_cons.mpr ⟨rfl, before⟩, fun succeeded => congrArg _ (whole succeeded)⟩
      | false =>
        rw [filter_cons_of_neg (by simp [kept_eq])]
        exact ih matched

theorem pairRow_failure {rows : List Row} (clean : ∀ row ∈ rows, ∃ kept, keep row = .ok kept) :
    (pairRow kind keep emit matched rows).failure = none := by
  induction rows generalizing matched with
  | nil =>
    unfold pairRow
    split <;> rfl
  | cons row rest ih =>
    unfold pairRow
    obtain ⟨kept, isKept⟩ := clean row mem_cons_self
    have rest := fun matched =>
      ih matched fun row member => clean row (mem_cons_of_mem _ member)
    rw [isKept]
    cases kept with
    | true => exact rest true
    | false => exact rest matched

end

theorem pairRow_clean {keep : Row -> Except Error Bool} {emit : Option Row -> δ} {matched : Bool}
    {rows : List Row} (succeeded : (pairRow kind keep emit matched rows).failure = none) :
    ∀ row ∈ rows, ∃ kept, keep row = .ok kept := by
  induction rows generalizing matched with
  | nil =>
    intro row member
    cases member
  | cons row rest ih =>
    unfold pairRow at succeeded
    cases isKept : keep row with
    | error error =>
      rw [isKept] at succeeded
      cases succeeded
    | ok kept =>
      rw [isKept] at succeeded
      rintro found (_ | ⟨_, member⟩)
      · exact ⟨kept, isKept⟩
      · cases kept with
        | true => exact ih succeeded found member
        | false => exact ih succeeded found member

theorem Delivers.andThen {first rest : Delivery δ} {answer more : List δ}
    (delivers : Delivers first answer) (others : Delivers rest more) :
    Delivers (first.andThen rest) (answer ++ more) := by
  unfold Delivery.andThen
  cases failure : first.failure with
  | some error =>
    refine ⟨delivers.before.trans (prefix_append _ _), fun succeeded => ?_⟩
    rw [failure] at succeeded
    cases succeeded
  | none =>
    rw [delivers.whole failure]
    exact ⟨(prefix_append_right_inj answer).mpr others.before,
      fun succeeded => congrArg _ (others.whole succeeded)⟩

variable {prepare : Row -> Except Error (List Row)} {candidates : Row -> List Row}
  {keep : Row → Row → Except Error Bool} {emit : ExecRow → Option Row → δ} {outers : List ExecRow}
  (prepared : ∀ outer ∈ outers, prepare outer.values = .ok (candidates outer.values))

include prepared

theorem pairRows_delivers : Delivers (pairRows kind prepare keep emit outers)
      (loopAnswer kind candidates keep emit outers) := by
  induction outers with
  | nil => exact ⟨prefix_refl _, fun _ => rfl⟩
  | cons outer rest ih =>
    unfold pairRows
    rw [prepared outer mem_cons_self]
    exact (pairRow_delivers _ _ _ _).andThen
      (ih fun outer member => prepared outer (mem_cons_of_mem _ member))

theorem pairRows_failure (clean : ∀ outer ∈ outers, ∀ row ∈ candidates outer.values,
    ∃ kept, keep outer.values row = .ok kept) :
    (pairRows kind prepare keep emit outers).failure = none := by
  induction outers with
  | nil => rfl
  | cons outer rest ih =>
    unfold pairRows
    rw [prepared outer mem_cons_self]
    simp only
    rw [Delivery.andThen, pairRow_failure _ _ _ (clean outer mem_cons_self)]
    exact ih (fun outer member => prepared outer (mem_cons_of_mem _ member))
      (fun outer member => clean outer (mem_cons_of_mem _ member))

theorem pairRows_clean (succeeded : (pairRows kind prepare keep emit outers).failure = none) :
    ∀ outer ∈ outers, ∀ row ∈ candidates outer.values,
      ∃ kept, keep outer.values row = .ok kept := by
  induction outers with
  | nil =>
    intro outer member
    cases member
  | cons outer rest ih =>
    unfold pairRows at succeeded
    rw [prepared outer mem_cons_self] at succeeded
    simp only [Delivery.andThen] at succeeded
    cases first : (pairRow kind (keep outer.values) (emit outer) false
        (candidates outer.values)).failure with
    | some error =>
      rw [first] at succeeded
      simp only [first] at succeeded
      cases succeeded
    | none =>
      rw [first] at succeeded
      rintro found (_ | ⟨_, member⟩)
      · exact pairRow_clean first
      · exact ih (fun outer member => prepared outer (mem_cons_of_mem _ member))
          succeeded found member

end Loop

/-! ## Loops over some of the rows -/

section Narrowed

variable {kind : JoinKind} {emit : ExecRow -> Option Row -> δ} {stored : List (RowId × Row)}
  {view : RowId × Row -> Row} {near : Row -> RowId × Row -> Bool}
  {keep : Row -> Row -> Except Error Bool} {admits : Row -> Row -> Bool}

/-- What the rows near an outer row contribute. -/
def narrowedAnswer (kind : JoinKind) (emit : ExecRow → Option Row → δ) (stored : List (RowId × Row))
    (view : RowId × Row -> Row) (wanted : Row -> RowId × Row -> Bool) (outers : List ExecRow) :
    List δ :=
  outers.flatMap fun outer =>
    pairAnswer kind (emit outer) false ((stored.filter (wanted outer.values)).map view)

theorem loopAnswer_eq_narrowedAnswer (outers : List ExecRow) :
    loopAnswer kind (fun outer => (stored.filter (near outer)).map view) keep emit outers =
      narrowedAnswer kind emit stored view
        (fun outer row => near outer row && Kept (keep outer) (view row)) outers := by
  unfold loopAnswer narrowedAnswer
  congr 1
  funext outer
  rw [filter_map, filter_filter]
  congr 3
  funext row
  exact Bool.and_comm _ _

theorem narrowedAnswer_congr {wanted other : Row -> RowId × Row -> Bool} {outers : List ExecRow}
    (same : ∀ outer ∈ outers, ∀ row ∈ stored, wanted outer.values row = other outer.values row) :
    narrowedAnswer kind emit stored view wanted outers =
      narrowedAnswer kind emit stored view other outers := by
  unfold narrowedAnswer
  refine flatMap_congr fun outer member => ?_
  rw [filter_congr (same outer member)]

theorem pairAnswer_eq_iff {wanted other : RowId × Row -> Bool} {emitted : Option Row -> δ}
    (fewer : ∀ row ∈ stored, wanted row = true -> other row = true)
    (apart : ∀ row ∈ stored, other row = true -> emitted none ≠ emitted (some (view row))) :
    let answer := fun chosen : RowId × Row -> Bool =>
      pairAnswer kind emitted false ((stored.filter chosen).map view)
    (answer wanted).length ≤ (answer other).length ∧
      (answer wanted = answer other -> ∀ row ∈ stored, other row = true -> wanted row = true) := by
  intro answer
  have sublist : (stored.filter wanted).Sublist (stored.filter other) := by
    have inner : stored.filter wanted = (stored.filter other).filter wanted := by
      rw [filter_filter]
      refine filter_congr fun row member => ?_
      cases isWanted : wanted row with
      | false => rfl
      | true => rw [fewer row member isWanted]; rfl
    rw [inner]
    exact filter_sublist
  have complete : (stored.filter wanted).length = (stored.filter other).length ->
      ∀ row ∈ stored, other row = true -> wanted row = true := by
    intro sameLength row member isOther
    have same := sublist.eq_of_length sameLength
    have found : row ∈ stored.filter other := mem_filter.mpr ⟨member, isOther⟩
    rw [<- same] at found
    exact (mem_filter.mp found).2
  have short := sublist.length_le
  cases isOther : stored.filter other with
  | nil =>
    have isWanted : stored.filter wanted = [] := by
      rw [isOther] at sublist
      exact sublist_nil.mp sublist
    refine ⟨by simp [answer, isOther, isWanted], fun _ => complete (by rw [isOther, isWanted])⟩
  | cons row rest =>
    have otherAnswer : answer other = (stored.filter other).map fun row =>
        emitted (some (view row)) := by
      simp [answer, pairAnswer, isOther]
    cases isWanted : stored.filter wanted with
    | nil =>
      refine ⟨?_, fun same => ?_⟩
      · rw [otherAnswer, isOther]
        simp only [answer, isWanted, pairAnswer]
        split <;> simp
      · exfalso
        rw [otherAnswer, isOther] at same
        simp only [answer, isWanted, pairAnswer] at same
        split at same
        · simp only [map_nil, nil_append, map_cons, List.cons.injEq] at same
          have member : row ∈ stored.filter other := by rw [isOther]; exact mem_cons_self
          obtain ⟨isStored, kept⟩ := mem_filter.mp member
          exact apart row isStored kept same.1
        · simp at same
    | cons first others =>
      have wantedAnswer : answer wanted = (stored.filter wanted).map fun row =>
          emitted (some (view row)) := by
        simp [answer, pairAnswer, isWanted]
      refine ⟨by simpa [wantedAnswer, otherAnswer] using short, fun same => complete ?_⟩
      rw [wantedAnswer, otherAnswer] at same
      simpa using congrArg List.length same

theorem narrowedAnswer_eq_iff {wanted other : Row -> RowId × Row -> Bool} {outers : List ExecRow}
    (fewer : ∀ outer ∈ outers, ∀ row ∈ stored, wanted outer.values row = true ->
      other outer.values row = true)
    (apart : ∀ outer ∈ outers, ∀ row ∈ stored, other outer.values row = true ->
      emit outer none ≠ emit outer (some (view row))) :
    narrowedAnswer kind emit stored view wanted outers =
        narrowedAnswer kind emit stored view other outers ↔
      ∀ outer ∈ outers, ∀ row ∈ stored, other outer.values row = true ->
        wanted outer.values row = true := by
  constructor
  · have both : (narrowedAnswer kind emit stored view wanted outers).length ≤
        (narrowedAnswer kind emit stored view other outers).length ∧
        (narrowedAnswer kind emit stored view wanted outers =
          narrowedAnswer kind emit stored view other outers ->
        ∀ outer ∈ outers, ∀ row ∈ stored, other outer.values row = true ->
          wanted outer.values row = true) := by
      induction outers with
      | nil => exact ⟨Nat.le_refl _, fun _ _ member => nomatch member⟩
      | cons outer rest ih =>
        obtain ⟨shorter, complete⟩ := @pairAnswer_eq_iff δ kind stored view
          (wanted outer.values) (other outer.values) (emit outer)
          (fewer outer mem_cons_self) (apart outer mem_cons_self)
        simp only at shorter complete
        obtain ⟨restShorter, restComplete⟩ := ih
          (fun outer member => fewer outer (mem_cons_of_mem _ member))
          (fun outer member => apart outer (mem_cons_of_mem _ member))
        unfold narrowedAnswer at restShorter restComplete ⊢
        simp only [flatMap_cons, length_append] at restShorter ⊢
        refine ⟨by omega, fun same => ?_⟩
        have lengths := congrArg List.length same
        rw [length_append, length_append] at lengths
        obtain ⟨sameFirst, sameRest⟩ := append_inj same (by omega)
        rintro found (_ | ⟨_, member⟩)
        · exact complete sameFirst
        · exact restComplete sameRest found member
    exact both.2
  · intro complete
    refine narrowedAnswer_congr fun outer member row isRow => ?_
    rw [Bool.eq_iff_iff]
    exact ⟨fewer outer member row isRow, complete outer member row isRow⟩

end Narrowed

end InlaySql.Sql
