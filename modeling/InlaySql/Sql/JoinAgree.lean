import InlaySql.Sql.JoinExact

/-!
# Every loop of every strategy

The loops over one side of a join: the iterator, the two callback loops and the borrowed
one. Each delivers the nested-loop answer if its strategy keeps every pair the `ON`
admits, and only then.
-/

namespace InlaySql.Sql

open List Lib

/-- The rows of a delivery, mapped. -/
def Delivery.map {δ ε : Type} (f : δ -> ε) (delivery : Delivery δ) : Delivery ε :=
  ⟨delivery.rows.map f, delivery.failure⟩

variable {δ ε : Type}

theorem Delivery.map_andThen (f : δ -> ε) (first rest : Delivery δ) :
    (first.andThen rest).map f = (first.map f).andThen (rest.map f) := by
  obtain ⟨rows, failure⟩ := first
  cases failure with
  | some error => rfl
  | none => simp [andThen, map]

theorem pairRow_map (f : δ -> ε) (kind : JoinKind) (keep : Row -> Except Error Bool)
    (emit : Option Row -> δ) (matched : Bool) (rows : List Row) :
    (pairRow kind keep emit matched rows).map f =
      pairRow kind keep (fun row => f (emit row)) matched rows := by
  induction rows generalizing matched with
  | nil =>
    unfold pairRow
    split <;> rfl
  | cons row rest ih =>
    unfold pairRow
    cases keep row with
    | error error => rfl
    | ok kept =>
      cases kept with
      | true =>
        rw [<- ih true]
        rfl
      | false => exact ih matched

theorem pairRows_map (f : δ -> ε) (kind : JoinKind) (prepare : Row -> Except Error (List Row))
    (keep : Row -> Row -> Except Error Bool) (emit : ExecRow -> Option Row -> δ)
    (outers : List ExecRow) :
    (pairRows kind prepare keep emit outers).map f =
      pairRows kind prepare keep (fun outer row => f (emit outer row)) outers := by
  induction outers with
  | nil => rfl
  | cons outer rest ih =>
    unfold pairRows
    cases prepare outer.values with
    | error error => rfl
    | ok rows =>
      rw [Delivery.map_andThen, ih, pairRow_map]

namespace JoinSite

variable {site : JoinSite}

/-- Whether the loops test the hashed key alone. -/
def fullOn (site : JoinSite) (strategy : JoinStrategy) : Bool :=
  (site.side strategy).isHash && isSingleEquality site.on

/-- What the loops over a strategy deliver. -/
def deliveries (site : JoinSite) (strategy : JoinStrategy) (outers : List ExecRow) :
    List (Delivery ExecRow) :=
  let side := site.side strategy
  nestedLoopJoin site.storage site.env site.on site.kind side outers ::
    tryForEachBorrowed site.storage site.env site.on site.kind side (site.fullOn strategy) outers ::
    ((if site.fullOn strategy then
        [(tryForEachHashPair site.storage site.kind side outers).map fun pair =>
          joinedRow side.width pair.1 pair.2]
      else []) ++
      match side with
      | .probe probed => [borrowedJoin site.storage site.env site.on site.kind probed outers]
      | _ => [])

/-- The test of the callback loops. -/
def tested (site : JoinSite) (strategy : JoinStrategy) (outer row : Row) : Except Error Bool :=
  if site.fullOn strategy then
    .ok (((site.side strategy).hashCandidateMatches outer row).getD false)
  else onKeeps site.env site.on outer row

theorem kept_onKeeps (outer row : Row) :
    Kept (onKeeps site.env site.on outer) row = site.admits outer row := by
  unfold Kept onKeeps admits
  cases site.on with
  | none => rfl
  | some on =>
    simp only [Option.all_some, Expr.admits]
    cases on.evaluate site.env (outer ++ row) with
    | error error => rfl
    | ok value => rfl

section Current

variable (current : site.cache.Current site.storage)

include current

theorem width_side (strategy : JoinStrategy) : (site.side strategy).width = site.width := by
  cases strategy with
  | hash outerKey innerKey collation =>
    rw [side_hash current]
    rfl
  | probe | materialise => rfl

omit current in
theorem tested_of_fullOn {strategy : JoinStrategy} (full : site.fullOn strategy = true) :
    site.tested strategy = fun outer row =>
      .ok (((site.side strategy).hashCandidateMatches outer row).getD false) := by
  funext outer row
  rw [tested, full, if_pos rfl]

theorem tryForEachBorrowed_eq (strategy : JoinStrategy) (outers : List ExecRow) :
    tryForEachBorrowed site.storage site.env site.on site.kind (site.side strategy)
        (site.fullOn strategy) outers =
      pairRows site.kind ((site.side strategy).prepare site.storage) (site.tested strategy)
        (joinedRow site.width) outers := by
  have same : (fun outer row => if site.fullOn strategy && site.on.isSome then
        .ok (((site.side strategy).hashCandidateMatches outer row).getD false)
      else onKeeps site.env site.on outer row) = site.tested strategy := by
    funext outer row
    have isOn : site.fullOn strategy = true -> site.on.isSome = true := by
      intro full
      rw [fullOn, Bool.and_eq_true] at full
      cases isOn : site.on with
      | none => rw [isOn] at full; exact full.2
      | some on => rfl
    rw [tested]
    cases full : site.fullOn strategy with
    | false => rfl
    | true => rw [isOn full]; rfl
  rw [tryForEachBorrowed, same, width_side current]

theorem mem_deliveries {strategy : JoinStrategy} {outers : List ExecRow}
    {delivery : Delivery ExecRow} (member : delivery ∈ site.deliveries strategy outers) :
    ∃ keep, (keep = onKeeps site.env site.on ∨ keep = site.tested strategy) ∧
      delivery = pairRows site.kind ((site.side strategy).prepare site.storage) keep
        (joinedRow site.width) outers := by
  unfold deliveries at member
  rcases mem_cons.mp member with rfl | member
  · exact ⟨_, .inl rfl, by rw [nestedLoopJoin, width_side current]⟩
  rcases mem_cons.mp member with rfl | member
  · exact ⟨_, .inr rfl, tryForEachBorrowed_eq current strategy outers⟩
  rcases mem_append.mp member with member | member
  · split at member
    · rename_i full
      rw [mem_singleton] at member
      refine ⟨_, .inr rfl, ?_⟩
      rw [member, tryForEachHashPair, pairRows_map, tested_of_fullOn full, width_side current]
    · cases member
  · split at member
    · rename_i probed isProbe
      rw [mem_singleton] at member
      refine ⟨_, .inl rfl, ?_⟩
      rw [member, isProbe, <- width_side current strategy, isProbe]
      rfl
    · cases member

end Current

/-! ## The candidates -/

variable {outer : Row}

/-- The strategies a site can have, with what their keys are. -/
inductive Chosen (site : JoinSite) : JoinStrategy -> Prop
  | materialise : Chosen site .materialise
  | hash {expr : Expr} {key : JoinKey} {ty : DataType} (hashKey : HashKey site expr key ty) :
      Chosen site (.ofHash key)
  | rowId {expr : Expr} {key : JoinKey} (isOn : site.on = some expr)
      (member : key ∈ collectJoinKeys site.offset site.width expr)
      (isAlias : site.inner.rowidAlias = some key.inner) (collation : Collation) :
      Chosen site (.probe key.outer .integer collation .rowId)
  | index {expr : Expr} {key : JoinKey} {index : Index} {ty : DataType}
      (indexKey : IndexKey site expr key index ty) :
      Chosen site (.probe key.outer ty key.collation (.index index.name))

theorem chosen_strategy (ready : site.Ready) (fullScan : Bool) (decision : Option JoinPath) :
    Chosen site (site.strategy fullScan decision) := by
  rcases joinStrategy_cases fullScan decision with isStrategy | ⟨key, found, isStrategy⟩ |
    ⟨⟨outerKey, ty, collation, kind⟩, found, isStrategy⟩
  · rw [strategy, isStrategy]
    exact .materialise
  · rw [strategy, isStrategy]
    obtain ⟨expr, ty, hashKey⟩ := hashKey_of_found ready found
    exact .hash hashKey
  · rw [strategy, isStrategy]
    obtain ⟨expr, key, isOn, member, rfl, ⟨rfl, rfl, isAlias⟩ |
      ⟨column, index, isIndex, rfl, leads, rfl, isColumn, isClass, rfl⟩⟩ := joinProbe_spec found
    · exact .rowId isOn member isAlias collation
    · exact .index ⟨isOn, member, isIndex, leads, isClass, column, isColumn, rfl⟩

theorem Chosen.prepare {strategy : JoinStrategy} (chosen : Chosen site strategy)
    (ready : site.Ready) (current : site.cache.Current site.storage)
    (outerReady : site.OuterReady outer) :
    (site.side strategy).prepare site.storage outer =
      .ok ((site.stored.filter (site.near strategy outer)).map site.view) := by
  cases chosen with
  | materialise => exact prepare_materialise
  | hash hashKey => exact prepare_hash current _ _ _
  | rowId => exact prepare_probe fun _ _ _ _ wrong => nomatch wrong
  | @index expr key index ty indexKey =>
    refine prepare_probe fun value name isValue indexable isName => ?_
    obtain rfl : index.name = name := ProbeKind.index.inj isName
    obtain ⟨bytes, isBytes⟩ := encodeValue_of_indexable
      (outerReady.fits value (mem_of_getElem? isValue)) indexable key.collation
    exact ⟨_, equality_single index.name isBytes, ready.indexed.nodup_scanIndexRowIds
      indexKey.isIndex indexKey.isBtree fun _ contains => inside_equality contains⟩

/-- Whether a loop delivers a pair. -/
def wanted (site : JoinSite) (strategy : JoinStrategy) (keep : Row -> Row -> Except Error Bool)
    (outer : Row) (stored : RowId × Row) : Bool :=
  site.near strategy outer stored && Kept (keep outer) (site.view stored)

section Wanted

variable {strategy : JoinStrategy} {stored : RowId × Row}

theorem wanted_onKeeps : site.wanted strategy (onKeeps site.env site.on) outer stored =
    (site.near strategy outer stored && site.admits outer (site.view stored)) := by
  rw [wanted, kept_onKeeps]

theorem wanted_tested (notFull : site.fullOn strategy = false) :
    site.wanted strategy (site.tested strategy) outer stored =
      (site.near strategy outer stored && site.admits outer (site.view stored)) := by
  have same : site.tested strategy outer = onKeeps site.env site.on outer := by
    funext row
    rw [tested, notFull]
    rfl
  rw [wanted, same, kept_onKeeps]

theorem wanted_tested_hash {key : JoinKey} (current : site.cache.Current site.storage)
    (full : site.fullOn (.ofHash key) = true) :
    site.wanted (.ofHash key) (site.tested (.ofHash key)) outer stored =
      (site.near (.ofHash key) outer stored && HashKey.matched site key outer stored) := by
  rw [wanted, tested_of_fullOn full, JoinStrategy.ofHash, side_hash current]
  rfl

variable (chosen : Chosen site strategy) (ready : site.Ready)
  (current : site.cache.Current site.storage) (outerReady : site.OuterReady outer)
  (isStored : stored ∈ site.stored)

include chosen ready current outerReady isStored

variable {keep : Row -> Row -> Except Error Bool}

theorem Chosen.admits_of_wanted
    (isKeep : keep = onKeeps site.env site.on ∨ keep = site.tested strategy)
    (isWanted : site.wanted strategy keep outer stored = true) :
    site.admits outer (site.view stored) = true := by
  rcases isKeep with rfl | rfl
  · rw [wanted_onKeeps, Bool.and_eq_true] at isWanted
    exact isWanted.2
  · cases full : site.fullOn strategy with
    | false =>
      rw [wanted_tested full, Bool.and_eq_true] at isWanted
      exact isWanted.2
    | true =>
      cases chosen with
      | hash hashKey =>
        rw [wanted_tested_hash current full, Bool.and_eq_true] at isWanted
        rw [fullOn, Bool.and_eq_true] at full
        exact hashKey.admits_of_matched ready outerReady isStored full.2 isWanted.2
      | materialise | rowId | index => cases full

theorem Chosen.wanted_iff (admitted : site.admits outer (site.view stored) = true) :
    site.wanted strategy (site.tested strategy) outer stored = true ↔
      site.Keeps strategy outer stored := by
  have near : site.fullOn strategy = false ->
      (site.wanted strategy (site.tested strategy) outer stored = true ↔
        site.near strategy outer stored = true) := by
    intro notFull
    rw [wanted_tested notFull, admitted, Bool.and_true]
  cases chosen with
  | materialise =>
    rw [near rfl]
    exact ⟨fun _ => trivial, fun _ => rfl⟩
  | rowId isOn member isAlias collation =>
    rw [near rfl]
    exact near_rowId_iff ready outerReady isStored isOn member isAlias collation admitted
  | index indexKey =>
    rw [near rfl]
    exact indexKey.near_iff ready outerReady isStored admitted
  | @hash _ key _ hashKey =>
    have isFull : site.fullOn (.ofHash key) = isSingleEquality site.on := Bool.true_and _
    cases single : isSingleEquality site.on with
    | false =>
      rw [near (isFull.trans single), hashKey.near_iff ready outerReady isStored admitted]
      change _ ↔ _ ∨ isSingleEquality site.on = false ∧ _
      rw [single]
      simp
    | true =>
      rw [wanted_tested_hash current (isFull.trans single),
        hashKey.matched_iff ready outerReady isStored admitted]
      change _ ↔ _ ∨ isSingleEquality site.on = false ∧ _
      rw [single]
      simp

theorem Chosen.wanted_of_keeps
    (isKeep : keep = onKeeps site.env site.on ∨ keep = site.tested strategy)
    (admitted : site.admits outer (site.view stored) = true)
    (keeps : site.Keeps strategy outer stored) : site.wanted strategy keep outer stored = true := by
  have isTested := (chosen.wanted_iff ready current outerReady isStored admitted).mpr keeps
  rcases isKeep with rfl | rfl
  · rw [wanted_onKeeps, admitted, Bool.and_true]
    rw [wanted, Bool.and_eq_true] at isTested
    exact isTested.1
  · exact isTested

omit current isStored in
theorem Chosen.joinedRow_ne (exec : ExecRow) (notAll : strategy ≠ .materialise) (admitted : site.admits outer (site.view stored) = true) :
    joinedRow site.width exec none ≠ joinedRow site.width exec (some (site.view stored)) := by
  have equal : ∃ (expr : Expr) (key : JoinKey), site.on = some expr ∧
      key ∈ collectJoinKeys site.offset site.width expr := by
    cases chosen with
    | materialise => exact absurd rfl notAll
    | hash hashKey => exact ⟨_, _, hashKey.isOn, hashKey.member⟩
    | rowId isOn member => exact ⟨_, _, isOn, member⟩
    | index indexKey => exact ⟨_, _, indexKey.isOn, indexKey.member⟩
  obtain ⟨expr, key, isOn, member⟩ := equal
  obtain ⟨-, innerCell, -, isInner, -, notNull, -⟩ :=
    equal_of_admits ready outerReady isOn member admitted
  intro same
  have rows := append_cancel_left (congrArg ExecRow.values same)
  simp only [Option.getD_none, Option.getD_some] at rows
  rw [<- rows, getElem?_replicate] at isInner
  split at isInner
  · exact notNull (Option.some.inj isInner).symm
  · cases isInner

end Wanted

/-- Every pair the `ON` admits is one the strategy keeps. -/
def KeepsAll (site : JoinSite) (strategy : JoinStrategy) (outers : List ExecRow) : Prop :=
  ∀ outer ∈ outers, ∀ stored ∈ site.stored,
    site.admits outer.values (site.view stored) = true -> site.Keeps strategy outer.values stored

end JoinSite

/-! A `REAL` column joined with a row id beyond 2⁵³: `a.r = b.id` is true after rounding,
and the probe looks for another row. -/

def measures : Table := ⟨"a", [⟨"r", .real, false, false, none, .binary⟩], false, false, [], false⟩

def numbered : Table :=
  ⟨"b", [⟨"id", .integer, true, false, none, .binary⟩], false, false, [], false⟩

def roundedSite : JoinSite where
  cache := ⟨0, false, fun _ => true, none⟩
  storage := (Storage.opened ∅).putRow "b" 9007199254740993 [.integer 9007199254740993]
  catalog := { Catalog.empty with tables :=
    (Catalog.empty.tables.insert "a" measures).insert "b" numbered }
  outers := [measures]
  inner := numbered
  later := []
  mask := .all
  on := some (.binary .eq (.column 0) (.column 1) .binary .numeric)
  kind := .inner
  env := peopleEnv

/-- The row of `a`, whose `r` is 9007199254740992.0. -/
def roundedOuter : ExecRow := ⟨1, none, [.real (F64.ofInt 9007199254740992)]⟩

theorem roundedSite_ready : roundedSite.Ready := by
  have isStored : roundedSite.storage.rows roundedSite.inner.name =
      [(9007199254740993, [.integer 9007199254740993])] := by decide +kernel
  have noIndexes : roundedSite.catalog.indexesFor roundedSite.inner.name = [] := by decide +kernel
  refine ⟨⟨?_, ?_, ?_, ?_, ?_, ?_, ?_⟩, ?_, ?_, ?_⟩
  · rw [isStored]
    simp
  · rw [isStored]
    simp [Value.Fits]
  · rw [isStored]
    intro stored member ordinal column cell isColumn isCell
    obtain rfl := mem_singleton.mp member
    cases ordinal with
    | zero =>
      obtain rfl := Option.some.inj isColumn
      obtain rfl := Option.some.inj isCell
      exact ⟨_, rfl⟩
    | succ ordinal => cases isCell
  · rw [isStored]
    intro ordinal isAlias stored member cell isCell
    obtain rfl := mem_singleton.mp member
    obtain rfl : 0 = ordinal := Option.some.inj isAlias
    exact .inr (Option.some.inj isCell).symm
  · rw [noIndexes]
    intro index member
    cases member
  · rw [noIndexes]
    intro index member
    cases member
  · rw [noIndexes]
    intro index member
    cases member
  · intro stored member
    have member : stored ∈ [(9007199254740993, [Value.integer 9007199254740993])] :=
      isStored ▸ member
    obtain rfl := mem_singleton.mp member
    rfl
  · intro on isOn
    obtain rfl := Option.some.inj isOn
    exact ⟨trivial, trivial, fun _ => by decide⟩
  · rw [noIndexes]
    intro index member
    cases member

theorem roundedOuter_ready : ∀ outer ∈ [roundedOuter], roundedSite.OuterReady outer.values := by
  intro outer member
  obtain rfl := mem_singleton.mp member
  refine ⟨rfl, by simp [roundedOuter, Value.Fits], ?_⟩
  intro ordinal column cell isColumn isCell
  cases ordinal with
  | zero =>
    obtain rfl := Option.some.inj isColumn
    obtain rfl := Option.some.inj isCell
    exact ⟨_, rfl⟩
  | succ ordinal => cases isCell

end InlaySql.Sql
