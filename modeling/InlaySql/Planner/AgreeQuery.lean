import InlaySql.Planner.AgreeWith

/-!
# Queries

The clauses of a query node are resolved as what they mean, and so is the query. The mutual
theorems at the end put the constructors together: every bare query is planned as what it
means, and the planner's binder is left as it was found.
-/

namespace InlaySql.Planner

open Lib Sql

variable {D : Dialect} {catalog : Catalog} {allowance : Nat}

/-! ## Clauses -/

/-- An `ORDER BY` clause is resolved as what it means. -/
def OrderBy.Exact (catalog : Catalog) (allowance : Nat) (orderBy : OrderBy D) : Prop :=
  ∀ {binder : Binder D} {frames : List Frame},
    NamesAgree allowance binder frames -> Unseen binder orderBy.names ->
    OrderAgrees allowance binder frames (orderBy.clause catalog)
      (orderBy.meaning catalog allowance)

theorem expressions_exact {nested : List (Query D)}
    (exact : ∀ query ∈ nested, query.Exact catalog allowance) (terms : List (OrderTerm D))
    (interpolate : Bool) :
    (OrderBy.expressions terms nested interpolate).Exact catalog allowance := by
  intro binder frames agree unseen
  rw [OrderBy.clause, OrderBy.meaning]
  refine ⟨rfl, rfl, ?_⟩
  intro scope bodies next planned
  exact planNested_exact exact agree unseen planned

theorem orderByAll_exact : (OrderBy.all : OrderBy D).Exact catalog allowance := by
  intro binder frames agree unseen
  rw [OrderBy.clause, OrderBy.meaning]
  refine ⟨rfl, rfl, ?_⟩
  intro scope bodies next planned
  cases planned
  exact ⟨rfl, [], rfl, .nil⟩

theorem unordered_exact : (OrderBy.absent : OrderBy D).Exact catalog allowance := by
  intro binder frames _ _
  trivial

/-- A row count is resolved as what it means. -/
def RowCount.Exact (catalog : Catalog) (allowance : Nat) (count : RowCount D) : Prop :=
  ∀ {what : String} {scope : Scope} {binder next : Binder D} {frames : List Frame}
    {bound : Count D},
    NamesAgree allowance binder frames -> Unseen binder count.names ->
    count.bindRowCount catalog what scope binder = .ok (bound, next) ->
    next = binder ∧ ∃ meaning, count.meaning catalog allowance frames scope = some meaning ∧
      CountDenotes allowance bound meaning

theorem absent_count_exact : (RowCount.absent : RowCount D).Exact catalog allowance := by
  intro what scope binder next frames bound _ _ resolved
  cases resolved
  exact ⟨rfl, _, rfl, fun _ => rfl⟩

theorem value_exact (text : String) (operand : D.Operand) :
    (RowCount.value text operand : RowCount D).Exact catalog allowance := by
  intro what scope binder next frames bound _ _ resolved
  rw [RowCount.bindRowCount] at resolved
  cases isBound : D.bindValue operand with
  | error error =>
    rw [isBound] at resolved
    cases resolved
  | ok operand =>
    rw [isBound] at resolved
    cases resolved
    refine ⟨rfl, ?_⟩
    rw [RowCount.meaning]
    exact exists_bind (toOption_eq_some isBound) ⟨_, rfl, fun _ => rfl⟩

theorem subquery_exact {query : Query D} (exact : query.Exact catalog allowance) (text : String) :
    (RowCount.subquery text query).Exact catalog allowance := by
  intro what scope binder next frames bound agree unseen resolved
  rw [RowCount.bindRowCount] at resolved
  obtain ⟨⟨body, after⟩, planned, checked⟩ := bind_eq_ok resolved
  obtain ⟨_, -, uncorrelated⟩ := bind_eq_ok checked
  obtain ⟨_, -, done⟩ := bind_eq_ok uncorrelated
  cases done
  obtain ⟨rfl, meaning, isMeaning, denotes⟩ := exact agree unseen planned
  refine ⟨rfl, ?_⟩
  rw [RowCount.meaning]
  refine exists_bind isMeaning ⟨_, rfl, ?_⟩
  intro env
  rw [Count.rows, denotes.run]
  rfl

theorem other_count_exact (text : String) :
    (RowCount.other text : RowCount D).Exact catalog allowance := by
  intro what scope binder next frames bound _ _ resolved
  cases resolved

/-- A `LIMIT` clause is resolved as what it means. -/
def LimitClause.Exact (catalog : Catalog) (allowance : Nat) (clause : LimitClause D) : Prop :=
  ∀ {binder : Binder D} {frames : List Frame},
    NamesAgree allowance binder frames -> Unseen binder clause.names ->
    LimitAgrees allowance binder frames (clause.planner catalog)
      (clause.meaning catalog allowance)

theorem unlimited_exact : (LimitClause.absent : LimitClause D).Exact catalog allowance := by
  intro binder frames _ _
  trivial

theorem limitOffset_exact {limit offset : RowCount D} (exactLimit : limit.Exact catalog allowance)
    (exactOffset : offset.Exact catalog allowance) (offsetRows limitBy : Bool) :
    (LimitClause.limitOffset limit offset offsetRows limitBy).Exact catalog allowance := by
  intro binder frames agree unseen
  rw [LimitClause.planner, LimitClause.meaning]
  intro scope counts next planned
  obtain ⟨_, noBy, limiting⟩ := bind_eq_ok planned
  obtain ⟨⟨first, middle⟩, isFirst, checking⟩ := bind_eq_ok limiting
  obtain ⟨_, noRows, skipping⟩ := bind_eq_ok checking
  obtain ⟨⟨skipped, after⟩, isSkipped, done⟩ := bind_eq_ok skipping
  cases done
  obtain ⟨rfl, firstMeaning, isFirstMeaning, firstDenotes⟩ := exactLimit agree unseen.left isFirst
  obtain ⟨rfl, skippedMeaning, isSkippedMeaning, skippedDenotes⟩ :=
    exactOffset agree unseen.right isSkipped
  refine ⟨rfl, firstMeaning, skippedMeaning, ?_, firstDenotes, skippedDenotes⟩
  simp [refuse_eq_ok noBy, refuse_eq_ok noRows, isFirstMeaning, isSkippedMeaning]

theorem offsetCommaLimit_exact {offset limit : RowCount D}
    (exactOffset : offset.Exact catalog allowance) (exactLimit : limit.Exact catalog allowance) :
    (LimitClause.offsetCommaLimit offset limit).Exact catalog allowance := by
  intro binder frames agree unseen
  rw [LimitClause.planner, LimitClause.meaning]
  intro scope counts next planned
  obtain ⟨⟨skipped, middle⟩, isSkipped, limiting⟩ := bind_eq_ok planned
  obtain ⟨⟨first, after⟩, isFirst, done⟩ := bind_eq_ok limiting
  cases done
  obtain ⟨rfl, skippedMeaning, isSkippedMeaning, skippedDenotes⟩ :=
    exactOffset agree unseen.left isSkipped
  obtain ⟨rfl, firstMeaning, isFirstMeaning, firstDenotes⟩ :=
    exactLimit agree unseen.right isFirst
  refine ⟨rfl, firstMeaning, skippedMeaning, ?_, firstDenotes, skippedDenotes⟩
  simp [isFirstMeaning, isSkippedMeaning]

/-! ## The query node -/

theorem extras_eq_none {extras : Extras} {result : Unit} (passed : extras.refuse = .ok result) :
    extras = .none := by
  obtain ⟨fetch, locks, forClause, settings, formatClause, pipeOperators⟩ := extras
  obtain ⟨_, noFetch, locking⟩ := bind_eq_ok passed
  obtain ⟨_, noLocks, formatting⟩ := bind_eq_ok locking
  obtain ⟨_, noFormat, noPipe⟩ := bind_eq_ok formatting
  have noFetch := refuse_eq_ok noFetch
  have noLocks := refuse_eq_ok noLocks
  have noFormat := refuse_eq_ok noFormat
  have noPipe := refuse_eq_ok noPipe
  simp_all [Extras.none]

theorem popFrame_recursiveSelf (clause : With D) (binder : Binder D) :
    (clause.popFrame binder).recursiveSelf = binder.recursiveSelf := by
  cases clause <;> rfl

theorem query_exact {withClause : With D} {body : SetExpr D} {orderBy : OrderBy D}
    {limitClause : LimitClause D} (exactWith : withClause.Exact catalog allowance)
    (exactBody : body.Exact catalog allowance) (exactOrder : orderBy.Exact catalog allowance)
    (exactLimit : limitClause.Exact catalog allowance) (extras : Extras) :
    (Query.mk withClause body orderBy limitClause extras).Exact catalog allowance := by
  intro parent binder next frames planned agree unseen isPlanned
  have unseen : Unseen binder (withClause.names ++ body.names ++ orderBy.names ++
    limitClause.names) := unseen
  rw [Query.planQueryBody] at isPlanned
  obtain ⟨_, plain, naming⟩ := bind_eq_ok isPlanned
  obtain ⟨inner, isInner, dispatched⟩ := bind_eq_ok naming
  obtain ⟨⟨result, after⟩, isResult, done⟩ := bind_eq_ok dispatched
  cases done
  obtain ⟨popped, extended, isExtended, agrees⟩ := exactWith agree unseen.left.left.left isInner
  have same : inner.recursiveSelf = binder.recursiveSelf := by
    rw [<- popped, popFrame_recursiveSelf]
  obtain ⟨rfl, meaning, isMeaning, denotes⟩ := exactBody agrees
    (unseen.left.left.right.of_eq same) (exactOrder agrees (unseen.left.right.of_eq same))
    (exactLimit agrees (unseen.right.of_eq same)) isResult
  refine ⟨popped, ?_⟩
  rw [Query.meaning]
  exact exists_guard (extras_eq_none plain) (exists_bind isExtended ⟨meaning, isMeaning, denotes⟩)

/-! ## Every bare query -/

section

variable (catalog) (allowance)

mutual

theorem Query.exact : ∀ query : Query D, query.bare = true -> query.Exact catalog allowance
  | .mk withClause body orderBy limitClause extras, bare => by
      simp only [Query.bare, Bool.and_eq_true] at bare
      obtain ⟨⟨⟨bareWith, bareBody⟩, bareOrder⟩, bareLimit⟩ := bare
      exact query_exact (withClause.exact bareWith) (body.exact bareBody)
        (orderBy.exact bareOrder) (limitClause.exact bareLimit) extras

theorem Query.armsExact : ∀ query : Query D, query.bare = true ->
    ∀ arm ∈ query.body.arms, arm.Exact catalog allowance
  | .mk _ body _ _ _, bare => by
      simp only [Query.bare, Bool.and_eq_true] at bare
      exact body.armsExact bare.1.1.2

theorem With.exact : ∀ clause : With D, clause.bare = true -> clause.Exact catalog allowance
  | .absent, _ => absent_with_exact
  | .tables recursive cteTables, bare => with_exact (cteTablesExact cteTables recursive bare)

theorem cteTablesExact : ∀ (cteTables : List (Cte D)) (recursive : Bool),
    cteTablesBare cteTables recursive = true ->
    ∀ cte ∈ cteTables, cte.Exact catalog allowance recursive
  | [], _, _ => by simp
  | cte :: rest, recursive, bare => by
      simp only [cteTablesBare, Bool.and_eq_true] at bare
      rw [List.forall_mem_cons]
      exact ⟨cte.exact recursive bare.1, cteTablesExact rest recursive bare.2⟩

theorem Cte.exact : ∀ (cte : Cte D) (recursive : Bool), cte.bare recursive = true ->
    cte.Exact catalog allowance recursive
  | .mk name columns query materialized, recursive, bare => by
      simp only [Cte.bare, Bool.and_eq_true, Bool.or_eq_true, Bool.not_eq_true'] at bare
      refine cte_exact (query.exact bare.1) (query.armsExact bare.1) ?_ columns materialized
      rintro rfl
      simpa using bare.2

theorem SetExpr.exact : ∀ expr : SetExpr D, expr.bare = true -> expr.Exact catalog allowance
  | .select arm, bare => selectBody_exact (arm.exact bare)
  | .query inner, bare => queryBody_exact (inner.exact bare)
  | .setOperation left op quantifier right, bare => by
      simp only [SetExpr.bare, Bool.and_eq_true] at bare
      refine compound_exact fun arm member => ?_
      rcases List.mem_append.mp member with member | member
      · exact left.armsExact bare.1 arm member
      · exact right.armsExact bare.2 arm member
  | .values _, _ => by
      intro _ _ _ _ planned
      cases planned
  | .other _, _ => by
      intro _ _ _ _ planned
      cases planned

theorem SetExpr.armsExact : ∀ expr : SetExpr D, expr.bare = true ->
    ∀ arm ∈ expr.arms, arm.Exact catalog allowance
  | .select select, bare => by
      intro arm member
      rw [List.mem_singleton.mp member]
      exact select.exact bare
  | .setOperation left _ _ right, bare => by
      simp only [SetExpr.bare, Bool.and_eq_true] at bare
      intro arm member
      rcases List.mem_append.mp member with member | member
      · exact left.armsExact bare.1 arm member
      · exact right.armsExact bare.2 arm member
  | .query _, _ => by simp [SetExpr.arms]
  | .values _, _ => by simp [SetExpr.arms]
  | .other _, _ => by simp [SetExpr.arms]

theorem Select.exact : ∀ select : Select D, select.bare = true -> select.Exact catalog allowance
  | .mk core [] nested, bare => by
      simp only [Select.bare, Bool.and_eq_true] at bare
      exact scalar_exact (nestedExact nested bare.2)
  | .mk core (source :: sources) nested, bare => by
      simp only [Select.bare, sourcesBare, Bool.and_eq_true] at bare
      refine select_exact ?_ (nestedExact nested bare.2)
      rw [List.forall_mem_cons]
      exact ⟨source.exact bare.1.1, sourcesExact sources bare.1.2⟩

theorem TableFactor.exact : ∀ source : TableFactor D, source.bare = true ->
    source.Exact catalog allowance
  | .table name aliasName args, _ => table_exact name aliasName args
  | .derived lateral subquery aliasName columns, bare =>
    derived_exact (subquery.exact bare) lateral aliasName columns
  | .nestedJoin, _ => by
      intro _ _ _ pushed
      cases pushed
  | .other _, _ => by
      intro _ _ _ pushed
      cases pushed

theorem sourcesExact : ∀ sources : List (TableFactor D), sourcesBare sources = true ->
    ∀ source ∈ sources, source.Exact catalog allowance
  | [], _ => by simp
  | source :: rest, bare => by
      simp only [sourcesBare, Bool.and_eq_true] at bare
      rw [List.forall_mem_cons]
      exact ⟨source.exact bare.1, sourcesExact rest bare.2⟩

theorem nestedExact : ∀ queries : List (Query D), nestedBare queries = true ->
    ∀ query ∈ queries, query.Exact catalog allowance
  | [], _ => by simp
  | query :: rest, bare => by
      simp only [nestedBare, Bool.and_eq_true] at bare
      rw [List.forall_mem_cons]
      exact ⟨query.exact bare.1, nestedExact rest bare.2⟩

theorem OrderBy.exact : ∀ orderBy : OrderBy D, orderBy.bare = true → orderBy.Exact catalog allowance
  | .absent, _ => unordered_exact
  | .all, _ => orderByAll_exact
  | .expressions terms nested interpolate, bare =>
    expressions_exact (nestedExact nested bare) terms interpolate

theorem LimitClause.exact : ∀ clause : LimitClause D, clause.bare = true ->
    clause.Exact catalog allowance
  | .absent, _ => unlimited_exact
  | .limitOffset limit offset offsetRows limitBy, bare => by
      simp only [LimitClause.bare, Bool.and_eq_true] at bare
      exact limitOffset_exact (limit.exact bare.1) (offset.exact bare.2) offsetRows limitBy
  | .offsetCommaLimit offset limit, bare => by
      simp only [LimitClause.bare, Bool.and_eq_true] at bare
      exact offsetCommaLimit_exact (offset.exact bare.1) (limit.exact bare.2)

theorem RowCount.exact : ∀ count : RowCount D, count.bare = true -> count.Exact catalog allowance
  | .absent, _ => absent_count_exact
  | .value text operand, _ => value_exact text operand
  | .subquery text query, bare => subquery_exact (query.exact bare) text
  | .other text, _ => other_count_exact text

end

end

end InlaySql.Planner
