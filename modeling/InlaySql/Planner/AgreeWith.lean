import InlaySql.Planner.AgreeSelect

/-!
# `WITH` lists

An entry that calls itself answers what it means when it is bare: its step sees the rows of
the step before under the entry's name, and no clause of its node is lost because it carries
none. Every other entry is an ordinary query. A list names its entries one after another, and
a query leaves the binder as it found it.
-/

namespace InlaySql.Planner

open List Lib Sql

variable {D : Dialect} {catalog : Catalog} {allowance : Nat}

/-! ## Recursive entries -/

/-- The binder inside the step of an entry. -/
def Binder.inStep (self : Binder D) (name : String) (table : Table) : Binder D :=
  { self with recursiveSelf := some (name, table), recursiveSelfUsed := false }

theorem used_inStep (binder : Binder D) (name : String) (table : Table) (names : List String) :
    ((binder.inStep name table).reading names).recursiveSelfUsed =
      names.any (sameName · name) := by
  simp [Binder.inStep, Binder.reading]

variable {name : String} {binder : Binder D} {frames : List Frame} {step : SubqueryBody D}
  {columns : List AliasColumn} {next : Binder D} {attempt : Option (SubqueryBody D)}
  {body : SubqueryBody D} {query : Query D} {recursive : Bool} {cteTables : List (Cte D)}

/-- The step of a recursive entry answers, on the rows of the step before, what the last arm
means with the name standing for them. -/
theorem step_exact {last : Select D} (exact : last.Exact catalog allowance) {table : Table}
    {planned : Binder D} (agree : NamesAgree allowance binder frames)
    (unnamed : last.innerNames.any (sameName · name) = false)
    (isStep : planArm catalog last [] (binder.inStep name table) = .ok (step, planned))
    (frontier : List Row) :
    planned = (binder.inStep name table).reading last.directNames ∧
      ∃ meaning, armMeaning catalog allowance last frames (some ⟨name, table, frontier⟩) [] =
        some meaning ∧ Denotes allowance (some ⟨name, table, frontier⟩) step meaning := by
  have inner : Unseen (binder.inStep name table) last.innerNames := by
    rintro own ⟨⟩ other member
    simpa using any_eq_false.mp unnamed other member
  have within : SelfAgrees (binder.inStep name table) last.directNames
    (some ⟨name, table, frontier⟩) := rfl
  have unordered : OrderAgrees allowance ((binder.inStep name table).reading last.directNames)
    frames none none := trivial
  have unlimited : LimitAgrees allowance ((binder.inStep name table).reading last.directNames)
    frames none none := trivial
  exact exact agree inner within unordered unlimited isStep

theorem recursive_denotes {seed : SubqueryBody D} {seedMeaning : Rowset} {all : Bool}
    {table : Table} {last : Select D} (seedDenotes : Denotes allowance none seed seedMeaning)
    (stepDenotes : ∀ frontier, ∃ meaning, armMeaning catalog allowance last frames
      (some ⟨name, table, frontier⟩) [] = some meaning ∧
        Denotes allowance (some ⟨name, table, frontier⟩) step meaning) :
    Denotes allowance none (.recursive seed step all (collationsOf seed.outputs))
      ⟨seedMeaning.outputs, recursiveRows D allowance all seedMeaning none fun outer frontier =>
        match armMeaning catalog allowance last frames (some ⟨name, table, frontier⟩) [] with
        | some step => step.rows outer
        | none => .error (.corrupt "a step without a meaning")⟩ := by
  refine ⟨seedDenotes.outputs, fun env _ => ?_⟩
  have steps : (fun frontier => step.run allowance { env with frontier := some frontier }) =
      fun frontier => match armMeaning catalog allowance last frames
          (some ⟨name, table, frontier⟩) [] with
        | some step => step.rows env.outer
        | none => .error (.corrupt "a step without a meaning") := by
    funext frontier
    obtain ⟨meaning, isMeaning, denotes⟩ := stepDenotes frontier
    rw [isMeaning]
    refine denotes.rows { env with frontier := some frontier } ?_
    rintro _ ⟨⟩
    rfl
  rw [SubqueryBody.run, seedDenotes.run, steps, seedDenotes.outputs]
  rfl

/-- What is right to make of the attempt at a recursive plan: a recursive body when the query
of the entry calls it, and otherwise nothing. -/
def AttemptExact (catalog : Catalog) (allowance : Nat) (name : String)
    (columns : List AliasColumn) (expr : SetExpr D) (frames : List Frame) :
    Option (SubqueryBody D) -> Prop
  | none => (∃ chain, expr.flattenCompound catalog = .ok chain) -> expr.calls name = false
  | some body => expr.calls name = true ∧
      ∃ meaning, recursionMeaning (D := D) allowance name columns (expr.chain catalog allowance)
        none none frames = some meaning ∧ Denotes allowance none body meaning

theorem tryPlanRecursiveCte_exact {expr : SetExpr D}
    (exact : ∀ arm ∈ expr.arms, arm.Exact catalog allowance)
    (agree : NamesAgree allowance binder frames) (unseen : Unseen binder expr.names)
    (unnamed : ∀ step, expr.step = some step -> step.innerNames.any (sameName · name) = false)
    (tried : tryPlanRecursiveCte name columns (expr.flattenCompound catalog) binder =
      .ok (attempt, next)) :
    next = binder ∧ AttemptExact catalog allowance name columns expr frames attempt := by
  cases flattened : expr.flattenCompound catalog with
  | error error =>
    rw [flattened] at tried
    cases tried
    refine ⟨rfl, ?_⟩
    rintro ⟨chain, isChain⟩
    rw [flattened] at isChain
    cases isChain
  | ok chain =>
    obtain ⟨first, rest⟩ := chain
    obtain ⟨head, links, rfl, rfl, isChain, arms, -, isStep, -⟩ :=
      flattenCompound_exact allowance expr flattened
    rw [flattened, tryPlanRecursiveCte] at tried
    rcases eq_nil_or_concat links with rfl | ⟨init, ⟨op, last⟩, rfl⟩
    · cases tried
      refine ⟨rfl, fun _ => ?_⟩
      rw [SetExpr.calls, isStep]
      rfl
    simp only [concat_eq_append, map_append, map_cons, map_nil,
      getLast?_concat, dropLast_concat, Prod.map] at tried arms isStep isChain
    have seen : ∀ arm ∈ head :: (init.map (·.2) ++ [last]),
        arm.Exact catalog allowance ∧ Unseen binder arm.names := by
      intro arm member
      rw [<- arms] at member
      exact ⟨exact arm member, unseen.mono (names_arms _ member)⟩
    obtain ⟨⟨seed, after⟩, isSeed, seeded⟩ := bind_eq_ok tried
    obtain ⟨synthetic, isSynthetic, named⟩ := bind_eq_ok seeded
    obtain ⟨table, isTable, stepping⟩ := bind_eq_ok named
    obtain ⟨⟨step, planned⟩, planStep, stepped⟩ := bind_eq_ok stepping
    have inInit : ∀ link ∈ init, link.2 ∈ head :: (init.map (·.2) ++ [last]) := fun link member =>
      mem_cons_of_mem _ (mem_append_left _ (mem_map_of_mem member))
    have lastSeen := seen last (mem_cons_of_mem _ (mem_append_right _ mem_cons_self))
    obtain ⟨rfl, -, seedMeaning, isSeedMeaning, seedDenotes⟩ := foldCompoundArms_exact
      (seen head mem_cons_self).1 (fun link member => (seen _ (inInit link member)).1) agree
      (seen head mem_cons_self).2 (fun link member => (seen _ (inInit link member)).2) isSeed
    have steps := step_exact lastSeen.1 agree (unnamed last isStep) planStep
    have isPlanned := (steps []).1
    have restored : ({ planned with
        recursiveSelf := after.recursiveSelf
        recursiveSelfUsed := after.recursiveSelfUsed } : Binder D) = after := by
      rw [isPlanned]
      rfl
    simp only [restored] at stepped
    have used : planned.recursiveSelfUsed = expr.calls name := by
      rw [isPlanned, used_inStep, SetExpr.calls, isStep]
      rfl
    by_cases calls : expr.calls name = true
    · rw [used, if_pos calls] at stepped
      obtain ⟨all, isAll, checked⟩ := bind_eq_ok stepped
      obtain ⟨_, -, widening⟩ := bind_eq_ok checked
      obtain ⟨_, wide, done⟩ := bind_eq_ok widening
      cases done
      refine ⟨rfl, calls, ?_⟩
      obtain ⟨-, meaning, isMeaning, denotes⟩ := steps []
      have width : seedMeaning.outputs.length = meaning.outputs.length := by
        have wide := refuse_eq_ok wide
        rw [seedDenotes.outputs, denotes.outputs] at wide
        simpa using wide
      rw [seedDenotes.outputs] at isSynthetic
      rw [recursionMeaning]
      refine exists_bind isChain (exists_bind getLast?_concat ?_)
      rw [dropLast_concat]
      refine exists_bind isSeedMeaning (exists_bind (toOption_eq_some isSynthetic)
        (exists_bind (toOption_eq_some isTable) (exists_bind (toOption_eq_some isAll)
          (exists_bind isMeaning (exists_guard width ⟨_, rfl, ?_⟩)))))
      exact recursive_denotes seedDenotes fun frontier => (steps frontier).2
    · rw [used, if_neg calls] at stepped
      cases stepped
      exact ⟨rfl, fun _ => by simpa using calls⟩

/-! ## Entries and lists -/

theorem NamesAgree.pushEntry {frame : Frame}
    (agree : NamesAgree allowance binder (frame :: frames)) {meaning : Rowset}
    (denotes : Denotes allowance none body meaning) (name : String) (table : Table) :
    NamesAgree allowance (binder.pushEntry ⟨name, table, body⟩)
      ({ frame with named := frame.named ++ [⟨name, table, meaning.rows⟩] } :: frames) := by
  obtain ⟨ctes, reserved, own, used⟩ := binder
  cases agree with
  | @cons entries _ _ _ _ first rest =>
    have grown : List.Forall₂ (EntryAgrees allowance) (entries ++ [⟨name, table, body⟩])
        ({ frame with named := frame.named ++ [⟨name, table, meaning.rows⟩] } : Frame).named :=
      rel_append first (.cons ⟨rfl, rfl, denotes.run⟩ .nil)
    exact FramesAgree.cons grown rest

theorem Unseen.of_eq {names : List String} (unseen : Unseen binder names)
    (same : next.recursiveSelf = binder.recursiveSelf) : Unseen next names := by
  rw [Unseen, same]
  exact unseen

/-- An entry is planned as what it means, and only adds itself to the innermost frame. -/
def Cte.Exact (catalog : Catalog) (allowance : Nat) (cte : Cte D) (recursive : Bool) : Prop :=
  ∀ {binder next : Binder D} {frame : Frame} {frames : List Frame},
    NamesAgree allowance binder (frame :: frames) -> Unseen binder cte.names ->
    cte.planOneCte catalog recursive binder = .ok next ->
    next.popFrame = binder.popFrame ∧ ∃ extended,
      cte.frames catalog allowance recursive (frame :: frames) = some (extended :: frames) ∧
        NamesAgree allowance next (extended :: frames)

/-- A `WITH` clause opens a frame the names behind it are resolved in. -/
def With.Exact (catalog : Catalog) (allowance : Nat) (clause : With D) : Prop :=
  ∀ {binder next : Binder D} {frames : List Frame},
    NamesAgree allowance binder frames -> Unseen binder clause.names ->
    clause.planCtes catalog binder = .ok next ->
    clause.popFrame next = binder ∧ ∃ extended,
      clause.frames catalog allowance frames = some extended ∧ NamesAgree allowance next extended

theorem flattened_of_calls {parent : Scope} {planned : SubqueryBody D × Binder D}
    (isPlanned : query.planQueryBody catalog parent binder = .ok planned)
    (calls : query.body.calls name = true) :
    ∃ chain, query.body.flattenCompound catalog = .ok chain := by
  obtain ⟨withClause, body, orderBy, limitClause, extras⟩ := query
  rw [Query.body] at calls ⊢
  cases body with
  | setOperation left op quantifier right =>
    rw [Query.planQueryBody] at isPlanned
    obtain ⟨_, -, isPlanned⟩ := bind_eq_ok isPlanned
    obtain ⟨inside, -, isPlanned⟩ := bind_eq_ok isPlanned
    obtain ⟨_, isBody, -⟩ := bind_eq_ok isPlanned
    rw [SetExpr.planBody, planCompound] at isBody
    obtain ⟨chain, flattened, -⟩ := bind_eq_ok isBody
    exact ⟨chain, by rw [SetExpr.flattenCompound]; exact flattened⟩
  | select _ => cases calls
  | query _ => cases calls
  | values _ => cases calls
  | other _ => cases calls

theorem flattenBody_eq (query : Query D) :
    query.flattenBody catalog = query.body.flattenCompound catalog := by
  cases query
  rw [Query.flattenBody]
  rfl

theorem Query.body_names (query : Query D) : query.body.names ⊆ query.names := by
  cases query
  rw [Query.names, Query.body]
  intro name member
  simp [member]

theorem of_carriesNothing (nothing : query.carriesNothing = true) :
    ∃ body, query = .mk .absent body .absent .absent .none := by
  unfold Query.carriesNothing at nothing
  split at nothing
  · rename_i body extras
    exact ⟨body, by rw [eq_of_beq nothing]⟩
  · cases nothing

theorem recursion_of_bare (bare : query.bareEntry name = true)
    (calls : query.body.calls name = true) :
    query.recursion catalog allowance name columns frames =
      recursionMeaning (D := D) allowance name columns (query.body.chain catalog allowance)
        none none frames := by
  rw [SetExpr.calls, Option.any_eq_true] at calls
  obtain ⟨step, isStep, reads⟩ := calls
  rw [Query.bareEntry, isStep] at bare
  simp only [reads, Bool.and_eq_true, Bool.not_true, Bool.false_or] at bare
  obtain ⟨body, rfl⟩ := of_carriesNothing bare.2
  rw [Query.recursion]
  rfl

theorem unnamed_of_bareEntry {step : Select D} (bare : query.bareEntry name = true)
    (isStep : query.body.step = some step) : step.innerNames.any (sameName · name) = false := by
  rw [Query.bareEntry, isStep] at bare
  simp only [Bool.and_eq_true, Bool.not_eq_true'] at bare
  exact bare.1

section

variable (exact : query.Exact catalog allowance)
    (exactArms : ∀ arm ∈ query.body.arms, arm.Exact catalog allowance)
    (bare : recursive = true -> query.bareEntry name = true)

include exact exactArms bare

theorem entryBody_exact {after : Binder D} (agree : NamesAgree allowance binder frames)
    (unseen : Unseen binder query.names)
    (attempted : attemptRecursive recursive name columns (query.flattenBody catalog) binder = .ok
      (attempt, after))
    (planned : (orPlan (attempt, after) fun binder => query.planQueryBody catalog [] binder) = .ok
      (body, next)) :
    next = binder ∧ ∃ meaning, (if recursive && query.body.calls name then
        query.recursion catalog allowance name columns frames
      else query.meaning catalog allowance frames []) = some meaning ∧
      Denotes allowance none body meaning := by
  have plain : after = binder -> attempt = none -> (recursive && query.body.calls name) = false ->
      next = binder ∧ ∃ meaning, (if recursive && query.body.calls name then
          query.recursion catalog allowance name columns frames
        else query.meaning catalog allowance frames []) = some meaning ∧
        Denotes allowance none body meaning := by
    rintro rfl rfl uncalled
    rw [uncalled, if_neg Bool.false_ne_true]
    exact exact agree unseen planned
  cases recursive with
  | false =>
    cases attempted
    exact plain rfl rfl rfl
  | true =>
    rw [attemptRecursive, if_pos rfl, flattenBody_eq] at attempted
    obtain ⟨same, attemptExact⟩ := tryPlanRecursiveCte_exact exactArms agree
      (unseen.mono query.body_names) (fun _ => unnamed_of_bareEntry (bare rfl)) attempted
    cases attempt with
    | none =>
      refine plain same rfl ?_
      cases calls : query.body.calls name with
      | false => rfl
      | true =>
        have uncalled := attemptExact (flattened_of_calls planned calls)
        exact absurd (calls.symm.trans uncalled) (by decide)
    | some recursion =>
      cases planned
      obtain ⟨calls, meaning, isMeaning, denotes⟩ := attemptExact
      rw [Bool.true_and, if_pos calls, recursion_of_bare (bare rfl) calls]
      exact ⟨same, meaning, isMeaning, denotes⟩

theorem cte_exact (columns : List AliasColumn) (materialized : Bool) :
    (Cte.mk name columns query materialized).Exact catalog allowance recursive := by
  intro binder next frame frames agree unseen planned
  rw [Cte.planOneCte] at planned
  obtain ⟨_, plain, attempting⟩ := bind_eq_ok planned
  obtain ⟨⟨attempt, after⟩, attempted, dispatched⟩ := bind_eq_ok attempting
  obtain ⟨⟨body, last⟩, isBody, naming⟩ := bind_eq_ok dispatched
  obtain ⟨synthetic, isSynthetic, aliasing⟩ := bind_eq_ok naming
  obtain ⟨table, isTable, done⟩ := bind_eq_ok aliasing
  cases done
  obtain ⟨rfl, meaning, isMeaning, denotes⟩ :=
    entryBody_exact exact exactArms bare agree unseen attempted isBody
  rw [denotes.outputs] at isSynthetic
  refine ⟨rfl, { frame with named := frame.named ++ [⟨name, table, meaning.rows⟩] }, ?_,
    agree.pushEntry denotes name table⟩
  rw [Cte.frames, guard, if_pos (by simp [refuse_eq_ok plain]), isMeaning]
  simp only [Option.pure_def, Option.bind_eq_bind, Option.bind_some,
    toOption_eq_some isSynthetic, toOption_eq_some isTable, addNamed]

end

section

variable (exact : ∀ cte ∈ cteTables, cte.Exact catalog allowance recursive)

include exact

theorem cteTables_exact {frame : Frame} (agree : NamesAgree allowance binder (frame :: frames))
    (unseen : Unseen binder (cteNames cteTables))
    (planned : planCteTables catalog cteTables recursive binder = .ok next) :
    next.popFrame = binder.popFrame ∧ ∃ extended,
      cteFrames catalog allowance cteTables recursive (frame :: frames) =
        some (extended :: frames) ∧ NamesAgree allowance next (extended :: frames) := by
  induction cteTables generalizing binder frame with
  | nil =>
    cases planned
    exact ⟨rfl, frame, rfl, agree⟩
  | cons cte rest ih =>
    rw [planCteTables] at planned
    obtain ⟨middle, isMiddle, planned⟩ := bind_eq_ok planned
    obtain ⟨popped, extended, isExtended, agrees⟩ :=
      exact cte mem_cons_self agree unseen.left isMiddle
    have same : middle.popFrame.recursiveSelf = binder.popFrame.recursiveSelf := by
      rw [popped]
    obtain ⟨poppedRest, whole, isWhole, agreesRest⟩ :=
      ih (fun other member => exact other (mem_cons_of_mem _ member)) agrees
        (unseen.right.of_eq same) planned
    refine ⟨poppedRest.trans popped, whole, ?_, agreesRest⟩
    rw [cteFrames, isExtended]
    exact isWhole

theorem with_exact : (With.tables recursive cteTables).Exact catalog allowance := by
  intro binder next frames agree unseen planned
  rw [With.planCtes] at planned
  let opened : Frame := ⟨cteTables.map Cte.name, []⟩
  have pushed : FramesAgree allowance ([] :: binder.ctes) (opened.declared :: binder.cteReserved)
      (opened :: frames) := .cons .nil agree
  have still : Unseen (binder.pushFrame (cteTables.map Cte.name)) (cteNames cteTables) :=
    unseen.of_eq rfl
  obtain ⟨popped, extended, isExtended, agrees⟩ := cteTables_exact exact pushed still planned
  exact ⟨popped, extended :: frames, isExtended, agrees⟩

end

theorem absent_with_exact : (With.absent : With D).Exact catalog allowance := by
  intro binder next frames agree _ planned
  cases planned
  exact ⟨rfl, frames, rfl, agree⟩

end InlaySql.Planner
