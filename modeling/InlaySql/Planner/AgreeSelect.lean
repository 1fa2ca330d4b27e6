import InlaySql.Planner.Agree

/-!
# Selects, compounds and recursive entries

A `SELECT` and a compound answer what they mean when their parts do, the clauses of their
query node included. A recursive entry does when its node carries no clause: its step then
repeats the last arm, the recursive name standing for the rows of the step before.
-/

namespace InlaySql.Planner

open List Lib Sql

variable {D : Dialect} {catalog : Catalog} {allowance : Nat}

/-! ## `ORDER BY` and `LIMIT` -/

/-- An `ORDER BY` clause is resolved as what it means. -/
def OrderAgrees (allowance : Nat) (binder : Binder D) (frames : List Frame) :
    Option (OrderClause D) -> Option (OrderMeaning D) -> Prop
  | none, none => True
  | some clause, some meaning =>
    clause.terms = meaning.terms ∧ clause.interpolate = meaning.interpolate ∧
      ∀ {scope : Scope} {bodies : List (SubqueryBody D)} {next : Binder D},
        clause.planNested scope binder = .ok (bodies, next) ->
        next = binder ∧ ∃ meanings, meaning.nested frames scope = some meanings ∧
          NestedDenote allowance bodies meanings
  | _, _ => False

/-- A `LIMIT` clause is resolved as what it means. -/
def LimitAgrees (allowance : Nat) (binder : Binder D) (frames : List Frame) :
    Option (LimitPlanner D) -> Option LimitMeaning -> Prop
  | none, none => True
  | some planner, some meaning =>
    ∀ {scope : Scope} {counts : Count D × Count D} {next : Binder D},
      planner scope binder = .ok (counts, next) ->
      next = binder ∧ ∃ limit offset, meaning frames scope = some (limit, offset) ∧
        CountDenotes allowance counts.1 limit ∧ CountDenotes allowance counts.2 offset
  | _, _ => False

section

variable {binder next : Binder D} {frames : List Frame} {order : Option (OrderClause D)}
  {ordering : Option (OrderMeaning D)} {limit : Option (LimitPlanner D)}
  {limiting : Option LimitMeaning}

theorem OrderAgrees.isSome (agrees : OrderAgrees allowance binder frames order ordering) :
    ordering.isSome = order.isSome := by
  cases order <;> cases ordering <;> first | rfl | exact agrees.elim

theorem LimitAgrees.isSome (agrees : LimitAgrees allowance binder frames limit limiting) :
    limiting.isSome = limit.isSome := by
  cases limit <;> cases limiting <;> first | rfl | exact agrees.elim

theorem listed_exact {clause : OrderClause D} {meaning : OrderMeaning D}
    {terms : List (OrderTerm D)} (sameTerms : clause.terms = meaning.terms)
    (sameInterpolate : clause.interpolate = meaning.interpolate)
    (listed : clause.listed = .ok terms) : meaning.listed = some terms := by
  rw [OrderClause.listed, sameTerms, sameInterpolate] at listed
  rw [OrderMeaning.listed]
  cases isTerms : meaning.terms with
  | none =>
    rw [isTerms] at listed
    cases listed
  | some all =>
    rw [isTerms] at listed
    obtain ⟨_, plain, listed⟩ := bind_eq_ok listed
    cases listed
    rw [refuse_eq_ok plain]
    rfl

theorem resolveOrderBy_exact {core : D.CorePlan} {scope : Scope} {keys : List (Order D.Key)}
    {nested : List (SubqueryBody D)}
    (agrees : OrderAgrees allowance binder frames order ordering)
    (resolved : resolveOrderBy order core scope binder = .ok ((keys, nested), next)) :
    next = binder ∧ ∃ meanings, orderMeaning ordering core frames scope = some (keys, meanings) ∧
      NestedDenote allowance nested meanings := by
  cases order with
  | none =>
    cases ordering with
    | none =>
      cases resolved
      exact ⟨rfl, [], rfl, .nil⟩
    | some _ => exact agrees.elim
  | some clause =>
    cases ordering with
    | none => exact agrees.elim
    | some meaning =>
      obtain ⟨sameTerms, sameInterpolate, planned⟩ := agrees
      obtain ⟨terms, listed, resolved⟩ := bind_eq_ok resolved
      obtain ⟨⟨bodies, after⟩, isPlanned, resolved⟩ := bind_eq_ok resolved
      obtain ⟨_, areKeys, resolved⟩ := bind_eq_ok resolved
      cases resolved
      obtain ⟨rfl, meanings, areMeanings, denote⟩ := planned isPlanned
      refine ⟨rfl, meanings, ?_, denote⟩
      rw [denote.outputs] at areKeys
      simp [orderMeaning, areMeanings, listed_exact sameTerms sameInterpolate listed,
        toOption_eq_some areKeys]

theorem resolveCompoundOrderBy_exact {columns : List Column} {keys : List (Order Nat)}
    (agrees : OrderAgrees allowance binder frames order ordering)
    (resolved : resolveCompoundOrderBy order columns = .ok keys) :
    compoundOrderMeaning ordering columns = some keys := by
  cases order with
  | none =>
    cases ordering with
    | none =>
      cases resolved
      rfl
    | some _ => exact agrees.elim
  | some clause =>
    cases ordering with
    | none => exact agrees.elim
    | some meaning =>
      obtain ⟨sameTerms, sameInterpolate, -⟩ := agrees
      obtain ⟨terms, listed, resolved⟩ := bind_eq_ok resolved
      simp [compoundOrderMeaning, listed_exact sameTerms sameInterpolate listed,
        toOption_eq_some resolved]

theorem resolveLimit_exact {scope : Scope} {counts : Count D × Count D}
    (agrees : LimitAgrees allowance binder frames limit limiting)
    (resolved : resolveLimit limit scope binder = .ok (counts, next)) :
    next = binder ∧ ∃ first skipped, limitMeaning limiting frames scope = some (first, skipped) ∧
      CountDenotes allowance counts.1 first ∧ CountDenotes allowance counts.2 skipped := by
  cases limit with
  | none =>
    cases limiting with
    | none =>
      cases resolved
      exact ⟨rfl, _, _, rfl, fun _ => rfl, fun _ => rfl⟩
    | some _ => exact agrees.elim
  | some planner =>
    cases limiting with
    | none => exact agrees.elim
    | some meaning => exact agrees resolved

end

/-! ## A `SELECT` -/

/-- A `SELECT` is planned as what it means, inside a step and outside. -/
def Select.Exact (catalog : Catalog) (allowance : Nat) (select : Select D) : Prop :=
  ∀ {order : Option (OrderClause D)} {ordering : Option (OrderMeaning D)}
    {limit : Option (LimitPlanner D)} {limiting : Option LimitMeaning} {parent : Scope}
    {binder next : Binder D} {frames : List Frame} {inside : Option Recursive}
    {body : SubqueryBody D},
    NamesAgree allowance binder frames ->
    Unseen binder select.innerNames -> SelfAgrees binder select.directNames inside ->
    OrderAgrees allowance (binder.reading select.directNames) frames order ordering ->
    LimitAgrees allowance (binder.reading select.directNames) frames limit limiting ->
    select.planSelectArm catalog order limit parent binder = .ok (body, next) ->
    next = binder.reading select.directNames ∧
      ∃ meaning, select.meaning catalog allowance ordering limiting frames inside parent =
        some meaning ∧ Denotes allowance inside body meaning

variable {nested : List (Query D)} {parent : Scope} {binder next : Binder D} {frames : List Frame}
  {body : SubqueryBody D} {links : List (SetOp × Select D)}

theorem scalar_exact {core : D.Core} (exact : ∀ query ∈ nested, query.Exact catalog allowance) :
    (Select.mk core [] nested).Exact catalog allowance := by
  intro order ordering limit limiting parent binder next frames inside body agree unseen _
    orders limits planned
  obtain ⟨_, plain, planned⟩ := bind_eq_ok planned
  obtain ⟨_, unclaused, planned⟩ := bind_eq_ok planned
  obtain ⟨⟨bodies, after⟩, areBodies, planned⟩ := bind_eq_ok planned
  obtain ⟨resolved, isCore, planned⟩ := bind_eq_ok planned
  cases planned
  obtain ⟨rfl, meanings, areMeanings, denote⟩ := planNested_exact exact agree unseen areBodies
  refine ⟨(Binder.reading_of_any rfl).symm, ?_⟩
  rw [denote.outputs] at isCore
  refine exists_bind (toOption_eq_some plain) (exists_guard ?_ (exists_bind areMeanings
    (exists_bind (toOption_eq_some isCore) ⟨_, rfl, rfl, ?_⟩)))
  · rw [orders.isSome, limits.isSome, refuse_eq_ok unclaused]
    rfl
  · intro env _
    rw [SubqueryBody.run, denote.run]
    rfl

theorem select_exact {core : D.Core} {source : TableFactor D} {sources : List (TableFactor D)}
    (exactSources : ∀ factor ∈ source :: sources, factor.Exact catalog allowance)
    (exactNested : ∀ query ∈ nested, query.Exact catalog allowance) :
    (Select.mk core (source :: sources) nested).Exact catalog allowance := by
  intro order ordering limit limiting parent binder next frames inside body agree unseen
    selfAgrees orders limits planned
  obtain ⟨_, plain, planned⟩ := bind_eq_ok planned
  obtain ⟨⟨first, afterFirst⟩, isFirst, planned⟩ := bind_eq_ok planned
  obtain ⟨⟨rest, afterRest⟩, areRest, planned⟩ := bind_eq_ok planned
  obtain ⟨_, -, planned⟩ := bind_eq_ok planned
  obtain ⟨⟨bodies, afterNested⟩, areBodies, planned⟩ := bind_eq_ok planned
  obtain ⟨resolved, isCore, planned⟩ := bind_eq_ok planned
  obtain ⟨⟨⟨keys, ordered⟩, afterOrder⟩, areKeys, planned⟩ := bind_eq_ok planned
  obtain ⟨⟨⟨count, offset⟩, afterLimit⟩, areCounts, planned⟩ := bind_eq_ok planned
  cases planned
  have pushed : pushSources catalog (source :: sources) binder = .ok (first :: rest, afterRest) := by
    rw [pushSources, isFirst]
    change (pushSources catalog sources afterFirst >>= _) = _
    rw [areRest]
    rfl
  obtain ⟨rfl, meanings, areMeanings, denote⟩ :=
    pushSources_exact exactSources agree unseen.left selfAgrees pushed
  obtain ⟨firstMeaning, isFirstMeaning, areMeanings⟩ := Option.bind_eq_some_iff.mp areMeanings
  obtain ⟨restMeanings, areRestMeanings, areMeanings⟩ := Option.bind_eq_some_iff.mp areMeanings
  cases areMeanings
  rw [denote.sources] at areBodies isCore areKeys areCounts
  obtain ⟨rfl, inner, areInner, innerDenote⟩ := planNested_exact exactNested
    (NamesAgree.reading agree _) (unseen.right.after _) areBodies
  obtain ⟨rfl, orderInner, isOrder, orderDenote⟩ := resolveOrderBy_exact orders areKeys
  obtain ⟨rfl, first', skipped, isLimit, firstDenotes, skippedDenotes⟩ :=
    resolveLimit_exact limits areCounts
  refine ⟨rfl, ?_⟩
  rw [innerDenote.outputs] at isCore
  refine exists_bind (toOption_eq_some plain) (exists_bind isFirstMeaning
    (exists_bind areRestMeanings (exists_bind areInner (exists_bind (toOption_eq_some isCore)
      (exists_bind isOrder (exists_bind isLimit ⟨_, rfl, rfl, ?_⟩))))))
  intro env inStep
  have allDenote : NestedDenote allowance (bodies ++ ordered) (inner ++ orderInner) :=
    rel_append innerDenote orderDenote
  change _ = selectRows _ _ _ _ _ _ env.outer
  rw [SubqueryBody.run, selectRows, firstDenotes env, skippedDenotes env, allDenote.run,
    denote.run inStep]

/-! ## A compound -/

theorem finishCompound_bare (rows : List Row) : finishCompound D [] none none rows = .ok rows := by
  have sorted : (rows.zipIdx 1).Pairwise fun left right => left.2 ≤ right.2 := by
    refine pairwise_map.mp ?_
    rw [zipIdx_map_snd]
    exact pairwise_le_range'
  have kept : (rows.zipIdx 1).mergeSort (fun left right => decide (left.2 ≤ right.2)) =
      rows.zipIdx 1 := mergeSort_of_pairwise (sorted.imp decide_eq_true)
  rw [finishCompound, sortRows]
  rw [kept]
  simp [page]

/-- Planning one arm of a compound. -/
def planArm (catalog : Catalog) (arm : Select D) : Arm D :=
  fun parent binder => arm.planSelectArm catalog none none parent binder

/-- What one arm of a compound means. -/
def armMeaning (catalog : Catalog) (allowance : Nat) (arm : Select D) : ArmMeaning :=
  fun frames self parent => arm.meaning catalog allowance none none frames self parent

theorem flattenCompound_exact (allowance : Nat) :
    ∀ (expr : SetExpr D) {first : Arm D} {rest : List (SetOp × Arm D)},
      expr.flattenCompound catalog = .ok (first, rest) ->
      ∃ (head : Select D) (links : List (SetOp × Select D)),
        first = planArm catalog head ∧
        rest = links.map (Prod.map id (planArm catalog)) ∧
        expr.chain catalog allowance = some (armMeaning catalog allowance head,
          links.map (Prod.map id (armMeaning catalog allowance))) ∧
        expr.arms = head :: links.map (·.2) ∧
        expr.lastArm = some ((links.map (·.2)).getLastD head) ∧
        expr.step = (links.map (·.2)).getLast? ∧ (links = [] -> ∃ arm, expr = .select arm)
  | .select arm, _, _, flattened => by
      cases flattened
      exact ⟨arm, [], rfl, rfl, rfl, rfl, rfl, rfl, fun _ => ⟨arm, rfl⟩⟩
  | .setOperation left op quantifier right, first, rest, flattened => by
      obtain ⟨⟨head, before⟩, isLeft, flattened⟩ := bind_eq_ok flattened
      obtain ⟨resolved, isOp, flattened⟩ := bind_eq_ok flattened
      obtain ⟨⟨middle, after⟩, isRight, flattened⟩ := bind_eq_ok flattened
      cases flattened
      obtain ⟨head, before, rfl, rfl, leftChain, leftArms, -⟩ :=
        flattenCompound_exact allowance left isLeft
      obtain ⟨middle, after, rfl, rfl, rightChain, rightArms, rightLast, -⟩ :=
        flattenCompound_exact allowance right isRight
      refine ⟨head, before ++ (resolved, middle) :: after, rfl, by simp, ?_, ?_, ?_, ?_, by simp⟩
      · rw [SetExpr.chain, joinChains, leftChain, rightChain, toOption_eq_some isOp]
        simp
      · rw [SetExpr.arms, leftArms, rightArms]
        simp
      · rw [SetExpr.lastArm, rightLast]
        simp [getLast?_cons]
      · rw [SetExpr.step, rightLast]
        simp [getLast?_cons]
  | .query _, _, _, flattened => nomatch flattened
  | .values _, _, _, flattened => nomatch flattened
  | .other _, _, _, flattened => nomatch flattened

theorem Select.names_eq (select : Select D) :
    select.names = select.directNames ++ select.innerNames := by
  cases select
  simp [Select.names, Select.directNames, Select.innerNames, append_assoc]

theorem planArm_exact {arm : Select D} (exact : arm.Exact catalog allowance)
    (agree : NamesAgree allowance binder frames) (unseen : Unseen binder arm.names)
    (planned : planArm catalog arm parent binder = .ok (body, next)) :
    next = binder ∧ ∃ meaning, armMeaning catalog allowance arm frames none parent =
      some meaning ∧ Denotes allowance none body meaning := by
  rw [arm.names_eq] at unseen
  have outside : SelfAgrees binder arm.directNames none := unseen.left
  have unordered : OrderAgrees allowance (binder.reading arm.directNames) frames none none :=
    trivial
  have unlimited : LimitAgrees allowance (binder.reading arm.directNames) frames none none :=
    trivial
  obtain ⟨same, found⟩ := exact agree unseen.right outside unordered unlimited planned
  exact ⟨same.trans unseen.left.reading, found⟩

/-- An operator without clauses. -/
def SubqueryBody.IsBare (self : SubqueryBody D) : Prop :=
  ∃ op left right collations, self = .setOp op left right collations [] .absent .absent

theorem run_setOp (op : SetOp) (left right : SubqueryBody D) (collations : List Collation)
    (env : Env) :
    (SubqueryBody.setOp op left right collations [] .absent .absent).run allowance env = (do
      let lefts <- left.run allowance env
      let rights <- right.run allowance env
      return combineSetOperation D op lefts rights collations) := by
  rw [SubqueryBody.run]
  congr 1
  funext lefts
  congr 1
  funext rights
  change finishCompound D [] none none _ = _
  rw [finishCompound_bare]
  rfl

theorem run_withClauses (bare : body.IsBare) (order : List (Order Nat)) (limit offset : Count D)
    (env : Env) :
    (body.withClauses order limit offset).run allowance env = (do
      let rows <- body.run allowance env
      let offset <- offset.rows allowance env
      let limit <- limit.rows allowance env
      finishCompound D order limit offset rows) := by
  obtain ⟨op, left, right, collations, rfl⟩ := bare
  rw [SubqueryBody.withClauses, run_setOp, SubqueryBody.run]
  simp only [bind_assoc, pure_bind]

theorem withClauses_outputs (body : SubqueryBody D) (order : List (Order Nat))
    (limit offset : Count D) : (body.withClauses order limit offset).outputs = body.outputs := by
  cases body <;> rfl

theorem foldArms_exact (exact : ∀ link ∈ links, link.2.Exact catalog allowance)
    {result : SubqueryBody D} {meaning : Rowset} (agree : NamesAgree allowance binder frames)
    (unseen : ∀ link ∈ links, Unseen binder link.2.names)
    (denotes : Denotes allowance none body meaning)
    (folded : foldArms parent body (links.map (Prod.map id (planArm catalog))) binder =
      .ok (result, next)) :
    next = binder ∧ (links ≠ [] ∨ body.IsBare -> result.IsBare) ∧
      ∃ whole, combineAll D frames parent meaning
        (links.map (Prod.map id (armMeaning catalog allowance))) = some whole ∧
        Denotes allowance none result whole := by
  induction links generalizing body meaning with
  | nil =>
    cases folded
    exact ⟨rfl, fun either => either.resolve_left (· rfl), meaning, rfl, denotes⟩
  | cons link links ih =>
    obtain ⟨⟨right, after⟩, isRight, checked⟩ := bind_eq_ok folded
    obtain ⟨_, wide, rest⟩ := bind_eq_ok checked
    obtain ⟨rfl, rightMeaning, isMeaning, rightDenotes⟩ := planArm_exact
      (exact link mem_cons_self) agree (unseen link mem_cons_self) isRight
    have width : meaning.outputs.length = rightMeaning.outputs.length := by
      have wide := refuse_eq_ok wide
      rw [denotes.outputs, rightDenotes.outputs] at wide
      simpa using wide
    have joined : Denotes allowance none
        (.setOp link.1 body right (collationsOf body.outputs) [] .absent .absent)
        ⟨meaning.outputs, fun outer => do
          let lefts <- meaning.rows outer
          let rights <- rightMeaning.rows outer
          return combineSetOperation D link.1 lefts rights (collationsOf meaning.outputs)⟩ := by
      refine ⟨denotes.outputs, fun env _ => ?_⟩
      rw [run_setOp, denotes.run, rightDenotes.run, denotes.outputs]
    obtain ⟨rfl, bare, whole, isWhole, wholeDenotes⟩ := ih
      (fun other member => exact other (mem_cons_of_mem _ member))
      (fun other member => unseen other (mem_cons_of_mem _ member)) joined rest
    refine ⟨rfl, fun _ => bare (.inr ⟨_, _, _, _, rfl⟩), ?_⟩
    refine exists_bind isMeaning ?_
    rw [Rowset.combine]
    simp only [guard, if_pos width]
    exact ⟨whole, isWhole, wholeDenotes⟩

theorem foldCompoundArms_exact {head : Select D} (exactHead : head.Exact catalog allowance)
    (exact : ∀ link ∈ links, link.2.Exact catalog allowance)
    (agree : NamesAgree allowance binder frames) (unseenHead : Unseen binder head.names)
    (unseen : ∀ link ∈ links, Unseen binder link.2.names)
    (folded : foldCompoundArms (planArm catalog head)
      (links.map (Prod.map id (planArm catalog))) parent binder = .ok (body, next)) :
    next = binder ∧ (links ≠ [] -> body.IsBare) ∧
      ∃ meaning, chainMeaning D (armMeaning catalog allowance head,
        links.map (Prod.map id (armMeaning catalog allowance))) frames parent = some meaning ∧
        Denotes allowance none body meaning := by
  obtain ⟨⟨first, after⟩, isFirst, rest⟩ := bind_eq_ok folded
  obtain ⟨rfl, firstMeaning, isMeaning, denotes⟩ :=
    planArm_exact exactHead agree unseenHead isFirst
  obtain ⟨same, bare, found⟩ := foldArms_exact exact agree unseen denotes rest
  refine ⟨same, fun some => bare (.inl some), ?_⟩
  exact exists_bind isMeaning found

/-- A body under the clauses of its query node is planned as what it means. -/
def SetExpr.Exact (catalog : Catalog) (allowance : Nat) (expr : SetExpr D) : Prop :=
  ∀ {order : Option (OrderClause D)} {ordering : Option (OrderMeaning D)}
    {limit : Option (LimitPlanner D)} {limiting : Option LimitMeaning} {parent : Scope}
    {binder next : Binder D} {frames : List Frame} {body : SubqueryBody D},
    NamesAgree allowance binder frames -> Unseen binder expr.names ->
    OrderAgrees allowance binder frames order ordering ->
    LimitAgrees allowance binder frames limit limiting ->
    expr.planBody catalog order limit parent binder = .ok (body, next) ->
    next = binder ∧ ∃ meaning, expr.meaning catalog allowance ordering limiting frames parent =
      some meaning ∧ Denotes allowance none body meaning

theorem selectBody_exact {select : Select D} (exact : select.Exact catalog allowance) :
    (SetExpr.select select).Exact catalog allowance := by
  intro order ordering limit limiting parent binder next frames body agree unseen orders limits
    planned
  have unseen : Unseen binder select.names := unseen
  rw [select.names_eq] at unseen
  have same := unseen.left.reading
  have outside : SelfAgrees binder select.directNames none := unseen.left
  obtain ⟨isNext, found⟩ := exact agree unseen.right outside (by rwa [same]) (by rwa [same]) planned
  exact ⟨isNext.trans same, found⟩

theorem queryBody_exact {inner : Query D} (exact : inner.Exact catalog allowance) :
    (SetExpr.query inner).Exact catalog allowance := by
  intro order ordering limit limiting parent binder next frames body agree unseen orders limits
    planned
  obtain ⟨_, unclaused, planned⟩ := bind_eq_ok planned
  obtain ⟨same, found⟩ := exact agree unseen planned
  refine ⟨same, ?_⟩
  refine exists_guard ?_ found
  rw [orders.isSome, limits.isSome, refuse_eq_ok unclaused]
  rfl

theorem names_arms : ∀ (expr : SetExpr D) {arm : Select D}, arm ∈ expr.arms → arm.names ⊆ expr.names
  | .select _, _, member => by
      rw [mem_singleton.mp member]
      exact List.Subset.refl _
  | .setOperation left _ _ right, arm, member => by
      rcases mem_append.mp member with member | member
      · exact List.Subset.trans (names_arms left member) (subset_append_left ..)
      · exact List.Subset.trans (names_arms right member) (subset_append_right ..)
  | .query _, _, member => nomatch member
  | .values _, _, member => nomatch member
  | .other _, _, member => nomatch member

theorem compound_exact {left right : SetExpr D} {op : SetOperator} {quantifier : SetQuantifier}
    (exact : ∀ arm ∈ (SetExpr.setOperation left op quantifier right).arms,
      arm.Exact catalog allowance) :
    (SetExpr.setOperation left op quantifier right).Exact catalog allowance := by
  intro order ordering limit limiting parent binder next frames body agree unseen orders limits
    planned
  obtain ⟨⟨first, rest⟩, flattened, folding⟩ := bind_eq_ok planned
  obtain ⟨⟨whole, after⟩, folded, naming⟩ := bind_eq_ok folding
  obtain ⟨synthetic, isTable, ordered⟩ := bind_eq_ok naming
  obtain ⟨keys, areKeys, limited⟩ := bind_eq_ok ordered
  obtain ⟨⟨⟨count, offset⟩, afterLimit⟩, areCounts, done⟩ := bind_eq_ok limited
  cases done
  rw [<- SetExpr.flattenCompound] at flattened
  obtain ⟨head, links, rfl, rfl, chain, arms, -, -, single⟩ :=
    flattenCompound_exact allowance _ flattened
  have several : links ≠ [] := by
    intro none
    obtain ⟨arm, isArm⟩ := single none
    cases isArm
  have seen : ∀ arm ∈ head :: links.map (·.2), arm.Exact catalog allowance ∧
      Unseen binder arm.names := by
    intro arm member
    rw [<- arms] at member
    exact ⟨exact arm member, unseen.mono (names_arms _ member)⟩
  obtain ⟨rfl, bare, meaning, isMeaning, denotes⟩ := foldCompoundArms_exact
    (seen head mem_cons_self).1
    (fun link member => (seen _ (mem_cons_of_mem _ (mem_map_of_mem member))).1) agree
    (seen head mem_cons_self).2
    (fun link member => (seen _ (mem_cons_of_mem _ (mem_map_of_mem member))).2) folded
  obtain ⟨rfl, first, skipped, isLimit, firstDenotes, skippedDenotes⟩ :=
    resolveLimit_exact limits areCounts
  refine ⟨rfl, ?_⟩
  rw [denotes.outputs] at isTable
  refine exists_bind chain (exists_bind isMeaning (exists_bind (toOption_eq_some isTable)
    (exists_bind (resolveCompoundOrderBy_exact orders areKeys) (exists_bind isLimit ⟨_, rfl, ?_⟩))))
  refine ⟨(withClauses_outputs ..).trans denotes.outputs, fun env _ => ?_⟩
  rw [run_withClauses (bare several), denotes.run, firstDenotes env, skippedDenotes env]
  rfl

end InlaySql.Planner
