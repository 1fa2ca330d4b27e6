import InlaySql.Lib.Stateful

/-!
# A computation and its reference

Two computations over two kinds of state agree when they have one outcome and end in
related states. The rules compare sequences and folds part by part, under a condition on
the items of the fold where there is one. A computation is blind to a part of its state
when it runs alike whatever that part is.
-/

namespace InlaySql.Lib.Stateful

open List

variable {σ τ ρ ε α β γ δ : Type}

theorem gets_bind (read : σ -> α) (rest : α -> Stateful σ ε β) (state : σ) :
    (gets read >>= rest) state = rest (read state) state := rfl

theorem ofExcept_ok_bind (value : α) (rest : α -> Stateful σ ε β) :
    (ofExcept (.ok value) >>= rest) = rest value := rfl

/-! ## Agreement -/

/-- From these two states, the computations have one outcome and end in related states. -/
def Agrees (relation : σ -> τ -> Prop) (left : Stateful σ ε α) (right : Stateful τ ε α)
    (state : σ) (other : τ) : Prop :=
  (left state).1 = (right other).1 ∧ relation (left state).2 (right other).2

namespace Agrees

variable {relation : σ -> τ -> Prop} {state : σ} {other : τ}

theorem pure (value : α) (related : relation state other) :
    Agrees (ε := ε) relation (Pure.pure value) (Pure.pure value) state other := ⟨rfl, related⟩

theorem fail (error : ε) (related : relation state other) :
    Agrees (α := α) relation (Stateful.fail error) (Stateful.fail error) state other := ⟨rfl, related⟩

theorem branch {read : σ -> Bool} {readOther : τ -> Bool} {yes no : Stateful σ ε α}
    {yesOther noOther : Stateful τ ε α} (same : read state = readOther other)
    (taken : read state = true -> Agrees relation yes yesOther state other)
    (passed : read state = false -> Agrees relation no noOther state other) :
    Agrees relation (Stateful.gets read >>= fun decided => if decided = true then yes else no)
      (Stateful.gets readOther >>= fun decided => if decided = true then yesOther else noOther)
      state other := by
  unfold Agrees
  rw [gets_bind, gets_bind, <- same]
  cases decided : read state with
  | true => exact taken decided
  | false => exact passed decided

theorem change {update : σ -> σ} {updateOther : τ -> τ}
    (related : relation (update state) (updateOther other)) :
    Agrees (ε := ε) relation (Stateful.change update) (Stateful.change updateOther) state other :=
  ⟨rfl, related⟩

variable {rest : α -> Stateful σ ε β}

theorem bind {between : σ -> τ -> Prop} {first : Stateful σ ε α} {firstOther : Stateful τ ε α}
    {restOther : α -> Stateful τ ε β} (one : Agrees between first firstOther state other)
    (failed : ∀ state other, between state other -> relation state other)
    (later : ∀ value next nextOther, first state = (.ok value, next) -> firstOther other = (.ok
      value, nextOther) -> between next nextOther -> Agrees relation (rest value) (restOther value)
      next nextOther) :
    Agrees relation (first >>= rest) (firstOther >>= restOther) state other := by
  obtain ⟨same, related⟩ := one
  unfold Agrees
  rw [bind_apply, bind_apply]
  cases ran : first state with
  | mk answer next =>
    cases ranOther : firstOther other with
    | mk answerOther nextOther =>
      rw [ran, ranOther] at same related
      obtain rfl : answer = answerOther := same
      cases answer with
      | error error => exact ⟨rfl, failed next nextOther related⟩
      | ok value => exact later value next nextOther ran ranOther related

theorem known {read : σ -> Except ε α} {value : α} {right : Stateful τ ε β}
    (found : read state = .ok value) (later : Agrees relation (rest value) right state other) :
    Agrees relation (tryGets read >>= rest) right state other := by
  unfold Agrees
  rw [bind_of_ok (show tryGets read state = (.ok value, state) by rw [tryGets_apply, found])]
  exact later

end Agrees

/-! ## Conditions along a fold -/

/-- A condition on each item of a fold, on the state the fold has come to. -/
def Along (condition : σ -> γ -> Prop) (step : β -> γ -> Stateful σ ε β) : List γ -> β -> σ -> Prop
  | [], _, _ => True
  | item :: items, carried, state =>
    condition state item ∧ ∀ next after, step carried item state = (.ok next, after) ->
      Along condition step items next after

theorem Along.always (step : β -> γ -> Stateful σ ε β) (items : List γ) (carried : β) (state : σ) :
    Along (fun _ _ => True) step items carried state := by
  induction items generalizing carried state with
  | nil => trivial
  | cons item items ih => exact ⟨trivial, fun next after _ => ih next after⟩

/-- Folds agree when their steps do. The relation may depend on the items that remain; the
condition is that of the reference. -/
theorem Agrees.foldlM (relation : List γ -> σ -> τ -> Prop) {condition : τ -> δ -> Prop}
    {ended : σ → τ → Prop} {step : β → γ → Stateful σ ε β} {reference : β → δ → Stateful τ ε β}
    {view : γ -> δ}
    (done : ∀ remaining state other, relation remaining state other -> ended state other)
    (one : ∀ carried item remaining state other, relation (item :: remaining) state other ->
      condition other (view item) -> Agrees (relation remaining) (step carried item)
        (reference carried (view item)) state other) :
    ∀ (items : List γ) (start : β) (state : σ) (other : τ), relation items state other ->
      Along condition reference (items.map view) start other ->
      Agrees ended (items.foldlM step start) ((items.map view).foldlM reference start)
        state other := by
  intro items
  induction items with
  | nil => exact fun start state other related _ => .pure start (done [] state other related)
  | cons item items ih =>
    intro start state other related along
    obtain ⟨holds, later⟩ := along
    rw [map_cons, foldlM_cons, foldlM_cons]
    refine .bind (one start item items state other related holds) (done items) ?_
    intro next after afterOther _ ranOther between
    exact ih next after afterOther between (later next afterOther ranOther)

/-! ## Blindness -/

/-- The computation neither reads nor changes what `put` replaces. -/
def Blind (put : ρ -> σ -> σ) (self : Stateful σ ε α) : Prop :=
  ∀ part state, self (put part state) = ((self state).1, put part (self state).2)

namespace Blind

variable {put : ρ -> σ -> σ}

theorem pure (value : α) : Blind put (Pure.pure value : Stateful σ ε α) := fun _ _ => rfl

theorem fail (error : ε) : Blind put (Stateful.fail error : Stateful σ ε α) := fun _ _ => rfl

theorem ofExcept (result : Except ε α) : Blind put (Stateful.ofExcept result : Stateful σ ε α) :=
  fun _ _ => rfl

theorem bind {first : Stateful σ ε α} {rest : α -> Stateful σ ε β} (one : Blind put first)
    (later : ∀ value, Blind put (rest value)) : Blind put (first >>= rest) := by
  intro part state
  rw [bind_apply, bind_apply, one part state]
  cases first state with
  | mk answer next =>
    cases answer with
    | error error => rfl
    | ok value => exact later value part next

theorem foldlM {step : β → γ → Stateful σ ε β} (one : ∀ carried item, Blind put (step carried item))
    (items : List γ) (start : β) : Blind put (items.foldlM step start) := by
  induction items generalizing start with
  | nil => exact .pure start
  | cons item items ih =>
    rw [foldlM_cons]
    exact (one start item).bind ih

theorem mapM {step : γ -> Stateful σ ε β} (one : ∀ item, Blind put (step item)) (items : List γ) :
    Blind put (items.mapM step) := by
  induction items with
  | nil => exact .pure []
  | cons item items ih =>
    rw [mapM_cons]
    exact (one item).bind fun _ => ih.bind fun _ => .pure _

theorem kept {self : Stateful σ ε α} (blind : Blind put self) {read : σ -> ρ}
    (put_read : ∀ state, put (read state) state = state)
    (read_put : ∀ part state, read (put part state) = part) (state : σ) :
    read (self state).2 = read state := by
  have ran := blind (read state) state
  rw [put_read] at ran
  calc read (self state).2 = read (put (read state) (self state).2) :=
        congrArg (fun result => read result.2) ran
    _ = read state := read_put _ _

end Blind

/-! ## What a map yields -/

section Maps

variable {step : γ -> Stateful σ ε β} {items : List γ} {values : List β} {state next : σ}

theorem length_mapM (ran : items.mapM step state = (.ok values, next)) :
    values.length = items.length := by
  induction items generalizing values state with
  | nil =>
    cases ran
    rfl
  | cons item items ih =>
    rw [mapM_cons] at ran
    obtain ⟨value, between, -, ran⟩ := bind_eq_ok ran
    obtain ⟨rest, last, others, ran⟩ := bind_eq_ok ran
    cases ran
    exact congrArg Nat.succ (ih others)

theorem forall_mapM {holds : β -> Prop}
    (yields : ∀ item ∈ items, ∀ state value next, step item state = (.ok value, next) → holds value)
    (ran : items.mapM step state = (.ok values, next)) : ∀ value ∈ values, holds value := by
  induction items generalizing values state with
  | nil =>
    cases ran
    exact nofun
  | cons item items ih =>
    rw [forall_mem_cons] at yields
    rw [mapM_cons] at ran
    obtain ⟨value, between, one, ran⟩ := bind_eq_ok ran
    obtain ⟨rest, last, others, ran⟩ := bind_eq_ok ran
    cases ran
    exact forall_mem_cons.mpr ⟨yields.1 state value between one, ih yields.2 others⟩

end Maps

/-! ## Beside a reference state -/

/-- Run a computation on the first part of a state. -/
def aside (self : Stateful σ ε α) : Stateful (σ × τ) ε α := fun state =>
  ((self state.1).1, ((self state.1).2, state.2))

theorem of_aside_eq {self : Stateful σ ε α} {state next : σ × τ} {answer : Except ε α}
    (ran : aside self state = (answer, next)) : self state.1 = (answer, next.1) ∧ next.2 = state.2 := by
  cases ran
  exact ⟨rfl, rfl⟩

end InlaySql.Lib.Stateful
