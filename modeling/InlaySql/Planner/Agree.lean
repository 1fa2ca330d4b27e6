import InlaySql.Lib.Fallible
import InlaySql.Planner.Bare

/-!
# Plans that answer what their queries mean

A plan denotes a meaning when it projects the same columns and, in every environment, runs
to the same rows. The binder agrees with the names in scope when its entries denote what the
names stand for. Each lemma here is about one way a plan is built from parts that denote.
-/

namespace InlaySql.Planner

open List Lib Sql

variable {D : Dialect} {catalog : Catalog} {allowance : Nat}

/-! ## Computations that succeed -/

theorem refuse_eq_ok {refused : Bool} {error : Error} {result : Unit}
    (passed : refuse refused error = .ok result) : refused = false := by
  cases refused with
  | false => rfl
  | true => cases passed

theorem exists_bind {α β : Type} {first : Option α} {rest : α -> Option β} {value : α}
    {property : β -> Prop} (found : first = some value)
    (follows : ∃ result, rest value = some result ∧ property result) :
    ∃ result, (first >>= rest) = some result ∧ property result := by
  subst found
  exact follows

theorem exists_guard {β : Type} {open' : Prop} [Decidable open'] {rest : Option β}
    {property : β -> Prop} (isOpen : open')
    (follows : ∃ result, rest = some result ∧ property result) :
    ∃ result, ((guard open' : Option Unit) >>= fun _ => rest) = some result ∧
      property result := by
  rw [guard, if_pos isOpen]
  exact follows

theorem toOption_eq_some {α : Type} {result : Except Error α} {value : α}
    (succeeded : result = .ok value) : result.toOption = some value := by
  rw [succeeded]
  rfl

/-! ## Denoting -/

/-- A plan projects what a meaning does and runs to its rows, inside a step too. -/
structure Denotes (allowance : Nat) (inside : Option Recursive) (body : SubqueryBody D)
    (meaning : Rowset) : Prop where
  outputs : body.outputs = meaning.outputs
  rows : ∀ env : Env, (∀ step, inside = some step -> env.frontier = some step.rows) ->
    body.run allowance env = meaning.rows env.outer

theorem Denotes.run {body : SubqueryBody D} {meaning : Rowset}
    (denotes : Denotes allowance none body meaning) (env : Env) :
    body.run allowance env = meaning.rows env.outer := denotes.rows env nofun

/-- What one source gives its `SELECT`. -/
def FromItem.relation (allowance : Nat) (env : Env) : FromItem D -> Except Error Relation
  | .stored table => .ok (.stored table)
  | .derived _ body => do return .rows (<- body.run allowance env)

theorem runSources_eq_mapM (items : List (FromItem D)) (env : Env) :
    runSources allowance items env = items.mapM fun item => item.relation allowance env := by
  induction items with
  | nil => rfl
  | cons item items ih =>
    rw [mapM_cons, <- ih]
    cases item with
    | stored table => rfl
    | derived table body =>
      rw [runSources, FromItem.relation]
      cases body.run allowance env <;> rfl

/-- A planned source presents the scope source of a meaning and holds its rows. -/
structure SourceDenotes (allowance : Nat) (inside : Option Recursive) (sourced : Sourced D)
    (meaning : SourceMeaning) : Prop where
  source : scopeSource sourced = meaning.source
  rows : ∀ env : Env, (∀ step, inside = some step -> env.frontier = some step.rows) ->
    sourced.1.relation allowance env = meaning.relation env.outer

abbrev SourcesDenote (allowance : Nat) (inside : Option Recursive) :
    List (Sourced D) -> List SourceMeaning -> Prop :=
  List.Forall₂ (SourceDenotes allowance inside)

theorem SourcesDenote.sources {inside : Option Recursive} {sources : List (Sourced D)}
    {meanings : List SourceMeaning} (denote : SourcesDenote allowance inside sources meanings) :
    sources.map scopeSource = meanings.map (·.source) := by
  induction denote with
  | nil => rfl
  | cons first _ ih => rw [map_cons, map_cons, first.source, ih]

variable {inside : Option Recursive} {bodies : List (SubqueryBody D)} {meanings : List Rowset}
  {name : String} {frames : List Frame} {binder : Binder D} {names all first rest : List String}
  {item : FromItem D} (aliasName : Option String) {next : Binder D}

theorem SourcesDenote.run {sources : List (Sourced D)} {meanings : List SourceMeaning}
    (denote : SourcesDenote allowance inside sources meanings) {env : Env}
    (inStep : ∀ step, inside = some step -> env.frontier = some step.rows) :
    runSources allowance (sources.map (·.1)) env =
      meanings.mapM fun source => source.relation env.outer := by
  rw [runSources_eq_mapM]
  induction denote with
  | nil => rfl
  | cons first _ ih =>
    rw [map_cons, mapM_cons, mapM_cons, ih, first.rows env inStep]

abbrev NestedDenote (allowance : Nat) : List (SubqueryBody D) -> List Rowset -> Prop :=
  List.Forall₂ (Denotes allowance none)

theorem NestedDenote.outputs (denote : NestedDenote allowance bodies meanings) :
    bodies.map (·.outputs) = meanings.map (·.outputs) := by
  induction denote with
  | nil => rfl
  | cons first _ ih => rw [map_cons, map_cons, first.outputs, ih]

theorem NestedDenote.run (denote : NestedDenote allowance bodies meanings) (env : Env) :
    runNested allowance bodies env =
      meanings.map fun query row => query.rows (row :: env.outer) := by
  induction denote with
  | nil => rfl
  | cons first _ ih =>
    rw [runNested, map_cons, ih]
    congr 1
    funext row
    exact first.run (env.nested row)

/-- A resolved count is read as the meaning reads it. -/
def CountDenotes (allowance : Nat) (count : Count D) (meaning : CountMeaning) : Prop :=
  ∀ env : Env, count.rows allowance env = meaning env.outer

/-! ## Names -/

/-- An entry stands for what the name does. -/
structure EntryAgrees (allowance : Nat) (entry : CteEntry D) (named : Named) : Prop where
  name : entry.name = named.name
  table : entry.table = named.table
  rows : ∀ env : Env, entry.body.run allowance env = named.rows env.outer

/-- The frames of the binder are the names in scope. -/
inductive FramesAgree (allowance : Nat) :
    List (List (CteEntry D)) -> List (List String) -> List Frame -> Prop where
  | nil : FramesAgree allowance [] [] []
  | cons {entries : List (CteEntry D)} {frame : Frame} {ctes : List (List (CteEntry D))}
      {reserved : List (List String)} {frames : List Frame}
      (first : List.Forall₂ (EntryAgrees allowance) entries frame.named)
      (rest : FramesAgree allowance ctes reserved frames) :
      FramesAgree allowance (entries :: ctes) (frame.declared :: reserved) (frame :: frames)

theorem find_agrees {entries : List (CteEntry D)} {named : List Named} (name : String)
    (agree : List.Forall₂ (EntryAgrees allowance) entries named) :
    (entries.find? (sameName ·.name name) = none ∧ named.find? (sameName ·.name name) = none) ∨
      ∃ entry found, entries.find? (sameName ·.name name) = some entry ∧
        named.find? (sameName ·.name name) = some found ∧ EntryAgrees allowance entry found := by
  induction agree with
  | nil => exact .inl ⟨rfl, rfl⟩
  | cons first _ ih =>
    rw [find?_cons, find?_cons, first.name]
    split
    · exact .inr ⟨_, _, rfl, rfl, first⟩
    · exact ih

theorem lookup_of_resolveCte {ctes : List (List (CteEntry D))} {reserved : List (List String)}
    {found : Option (CteEntry D)} (agree : FramesAgree allowance ctes reserved frames)
    (resolved : resolveCte name ctes reserved = .ok found) :
    (found = none ∧ lookup name frames = some none) ∨ ∃ entry named, found = some entry ∧
      lookup name frames = some (some named) ∧ EntryAgrees allowance entry named := by
  induction agree with
  | nil =>
    cases resolved
    exact .inl ⟨rfl, rfl⟩
  | @cons entries frame _ _ _ first _ ih =>
    rw [resolveCte] at resolved
    rw [lookup]
    rcases find_agrees name first with ⟨noEntry, noNamed⟩ | ⟨entry, named, isEntry, isNamed, same⟩
    · rw [noEntry] at resolved
      rw [noNamed]
      by_cases declared : frame.declared.any (sameName · name) = true
      · rw [if_pos declared] at resolved
        cases resolved
      · rw [if_neg declared] at resolved
        simp only [declared]
        exact ih resolved
    · rw [isEntry] at resolved
      rw [isNamed]
      cases resolved
      exact .inr ⟨entry, named, rfl, rfl, same⟩

/-- The entries of the binder are what the names in scope stand for. -/
abbrev NamesAgree (allowance : Nat) (binder : Binder D) (frames : List Frame) : Prop :=
  FramesAgree allowance binder.ctes binder.cteReserved frames

/-- The name of the recursive entry being resolved is not among these. -/
def Unseen (binder : Binder D) (names : List String) : Prop :=
  ∀ own, binder.recursiveSelf = some own -> ∀ name ∈ names, sameName name own.1 = false

/-- Inside a step, the entry being resolved is the recursive one; outside, its name is not
read. -/
def SelfAgrees (binder : Binder D) (names : List String) : Option Recursive -> Prop
  | none => Unseen binder names
  | some step => binder.recursiveSelf = some (step.name, step.table)

/-- The binder once these names have been read. -/
def Binder.reading (self : Binder D) (names : List String) : Binder D :=
  { self with recursiveSelfUsed := self.recursiveSelfUsed ||
      names.any fun name => self.recursiveSelf.any (sameName name ·.1) }

theorem NamesAgree.reading (agree : NamesAgree allowance binder frames) (read : List String) :
    NamesAgree allowance (binder.reading read) frames := agree

theorem Unseen.mono (unseen : Unseen binder all) (among : names ⊆ all) : Unseen binder names :=
  fun own isOwn name member => unseen own isOwn name (among member)

theorem Unseen.left (unseen : Unseen binder (first ++ rest)) : Unseen binder first :=
  unseen.mono (subset_append_left ..)

theorem Unseen.right (unseen : Unseen binder (first ++ rest)) : Unseen binder rest :=
  unseen.mono (subset_append_right ..)

theorem Unseen.any (unseen : Unseen binder names) :
    (names.any fun name => binder.recursiveSelf.any (sameName name ·.1)) = false := by
  rw [any_eq_false]
  intro name member
  cases isSelf : binder.recursiveSelf with
  | none => simp
  | some own => simp [unseen own isSelf name member]

theorem Binder.reading_of_any
    (others : (names.any fun name => binder.recursiveSelf.any (sameName name ·.1)) = false) :
    binder.reading names = binder := by
  rw [Binder.reading, others, Bool.or_false]

theorem Unseen.after (unseen : Unseen binder names) (read : List String) :
    Unseen (binder.reading read) names := unseen

theorem Unseen.reading (unseen : Unseen binder names) :
    binder.reading names = binder := Binder.reading_of_any unseen.any

theorem Binder.reading_append (binder : Binder D) (first rest : List String) :
    (binder.reading first).reading rest = binder.reading (first ++ rest) := by
  simp [Binder.reading, Bool.or_assoc]

theorem resolveNamed_exact (agree : NamesAgree allowance binder frames)
    (elsewhere : inside.filter (sameName name ·.name) = none)
    (resolved : resolveNamed catalog name binder = .ok item) :
    ∃ meaning, namedMeaning catalog name aliasName frames inside = some meaning ∧
      SourceDenotes allowance inside (item, aliasName) meaning := by
  rw [resolveNamed] at resolved
  obtain ⟨found, isFound, resolved⟩ := bind_eq_ok resolved
  rw [namedMeaning, elsewhere]
  rcases lookup_of_resolveCte agree isFound with ⟨rfl, isNone⟩ | ⟨entry, named, rfl, isNamed, same⟩
  · obtain ⟨table, isTable, resolved⟩ := bind_eq_ok resolved
    cases resolved
    refine exists_bind isNone (exists_bind (toOption_eq_some isTable) ⟨_, rfl, rfl, ?_⟩)
    intro env _
    rfl
  · cases resolved
    refine exists_bind isNamed ⟨_, rfl, ?_, ?_⟩
    · rw [scopeSource, same.table]
    · intro env _
      rw [FromItem.relation, same.rows env]

theorem pushNamed_exact (agree : NamesAgree allowance binder frames)
    (selfAgrees : SelfAgrees binder [name] inside)
    (pushed : pushNamed catalog name binder = .ok (item, next)) :
    next = binder.reading [name] ∧
      ∃ meaning, namedMeaning catalog name aliasName frames inside = some meaning ∧
        SourceDenotes allowance inside (item, aliasName) meaning := by
  -- a name resolved elsewhere leaves the binder as it was
  have other : inside.filter (sameName name ·.name) = none ->
      (do return (<- resolveNamed catalog name binder, binder)) = Except.ok (item, next) ->
      next = binder ∧ ∃ meaning, namedMeaning catalog name aliasName frames inside = some meaning ∧
        SourceDenotes allowance inside (item, aliasName) meaning := by
    intro elsewhere resolved
    obtain ⟨found, isFound, resolved⟩ := bind_eq_ok resolved
    cases resolved
    exact ⟨rfl, resolveNamed_exact aliasName agree elsewhere isFound⟩
  cases inside with
  | none =>
    rw [Unseen.reading selfAgrees]
    rw [pushNamed] at pushed
    cases isSelf : binder.recursiveSelf with
    | none =>
      rw [isSelf] at pushed
      exact other rfl pushed
    | some own =>
      rw [isSelf] at pushed
      have distinct := selfAgrees own isSelf name mem_cons_self
      simp only [distinct] at pushed
      exact other rfl pushed
  | some step =>
    have isSelf : binder.recursiveSelf = some (step.name, step.table) := selfAgrees
    rw [pushNamed, isSelf] at pushed
    by_cases called : sameName name step.name = true
    · simp only [called, if_true] at pushed
      obtain ⟨_, -, pushed⟩ := bind_eq_ok pushed
      cases pushed
      refine ⟨by simp [Binder.reading, isSelf, called], ?_⟩
      rw [namedMeaning, Option.filter, if_pos called]
      refine ⟨_, rfl, rfl, ?_⟩
      intro env inStep
      rw [FromItem.relation, SubqueryBody.run, inStep step rfl]
      rfl
    · have distinct : sameName name step.name = false := by simpa using called
      simp only [distinct] at pushed
      obtain ⟨same, found⟩ := other (by rw [Option.filter, if_neg called]) pushed
      exact ⟨same.trans (Binder.reading_of_any (by simp [isSelf, distinct])).symm, found⟩

theorem SelfAgrees.mono (agrees : SelfAgrees binder all inside) (among : names ⊆ all) :
    SelfAgrees binder names inside := by
  cases inside with
  | none => exact Unseen.mono agrees among
  | some step => exact agrees

theorem SelfAgrees.reading (agrees : SelfAgrees binder names inside) (read : List String) :
    SelfAgrees (binder.reading read) names inside := by
  cases inside with
  | none => exact agrees
  | some step => exact agrees

/-! ## Sources and nested queries -/

/-- A query is planned as what it means, and leaves the binder as it was. -/
def Query.Exact (catalog : Catalog) (allowance : Nat) (query : Query D) : Prop :=
  ∀ {parent : Scope} {binder next : Binder D} {frames : List Frame} {body : SubqueryBody D},
    NamesAgree allowance binder frames -> Unseen binder query.names ->
    query.planQueryBody catalog parent binder = .ok (body, next) ->
    next = binder ∧ ∃ meaning, query.meaning catalog allowance frames parent = some meaning ∧
      Denotes allowance none body meaning

/-- A source is resolved to what it means, inside a step and outside. -/
def TableFactor.Exact (catalog : Catalog) (allowance : Nat) (source : TableFactor D) : Prop :=
  ∀ {binder next : Binder D} {frames : List Frame} {inside : Option Recursive}
    {sourced : Sourced D},
    NamesAgree allowance binder frames ->
    Unseen binder source.innerNames -> SelfAgrees binder (directNames [source]) inside ->
    source.pushSource catalog binder = .ok (sourced, next) ->
    next = binder.reading (directNames [source]) ∧
      ∃ meaning, source.meaning catalog allowance frames inside = some meaning ∧
        SourceDenotes allowance inside sourced meaning

theorem directNames_cons (source : TableFactor D) (rest : List (TableFactor D)) :
    directNames (source :: rest) = directNames [source] ++ directNames rest := by
  cases source <;> rfl

theorem table_exact (name : String) (aliasName : Option String) (args : Bool) :
    (TableFactor.table name aliasName args : TableFactor D).Exact catalog allowance := by
  intro binder next frames inside sourced agree _ selfAgrees pushed
  rw [TableFactor.pushSource] at pushed
  obtain ⟨_, plain, pushed⟩ := bind_eq_ok pushed
  obtain ⟨⟨item, after⟩, isNamed, pushed⟩ := bind_eq_ok pushed
  cases pushed
  obtain ⟨same, found⟩ := pushNamed_exact aliasName agree selfAgrees isNamed
  refine ⟨same, ?_⟩
  rw [TableFactor.meaning]
  exact exists_guard (by simp [refuse_eq_ok plain]) found

theorem derived_exact {subquery : Query D} (exact : subquery.Exact catalog allowance)
    (lateral : Bool) (aliasName : Option String) (columns : Bool) :
    (TableFactor.derived lateral subquery aliasName columns).Exact catalog allowance := by
  intro binder next frames inside sourced agree unseen _ pushed
  rw [TableFactor.pushSource] at pushed
  obtain ⟨_, notLateral, pushed⟩ := bind_eq_ok pushed
  obtain ⟨_, noColumns, pushed⟩ := bind_eq_ok pushed
  obtain ⟨⟨body, after⟩, planned, pushed⟩ := bind_eq_ok pushed
  obtain ⟨table, isTable, pushed⟩ := bind_eq_ok pushed
  cases pushed
  obtain ⟨rfl, meaning, isMeaning, denotes⟩ := exact agree unseen planned
  refine ⟨(Binder.reading_of_any rfl).symm, ?_⟩
  rw [denotes.outputs] at isTable
  rw [TableFactor.meaning]
  refine exists_guard (by simp [refuse_eq_ok notLateral, refuse_eq_ok noColumns]) ?_
  refine exists_bind isMeaning (exists_bind (toOption_eq_some isTable) ⟨_, rfl, rfl, ?_⟩)
  intro env _
  rw [FromItem.relation, denotes.run]

theorem pushSources_exact {sources : List (TableFactor D)}
    (exact : ∀ source ∈ sources, source.Exact catalog allowance) {sourced : List (Sourced D)}
    (agree : NamesAgree allowance binder frames) (unseen : Unseen binder (sourceNames sources))
    (selfAgrees : SelfAgrees binder (directNames sources) inside)
    (pushed : pushSources catalog sources binder = .ok (sourced, next)) :
    next = binder.reading (directNames sources) ∧
      ∃ meanings, sourceMeanings catalog allowance sources frames inside = some meanings ∧
        SourcesDenote allowance inside sourced meanings := by
  induction sources generalizing binder next sourced with
  | nil =>
    cases pushed
    exact ⟨(Binder.reading_of_any rfl).symm, [], rfl, .nil⟩
  | cons source sources ih =>
    rw [pushSources] at pushed
    obtain ⟨⟨first, middle⟩, isFirst, pushed⟩ := bind_eq_ok pushed
    obtain ⟨⟨rest, last⟩, isRest, pushed⟩ := bind_eq_ok pushed
    cases pushed
    rw [directNames_cons] at selfAgrees ⊢
    obtain ⟨rfl, meaning, isMeaning, denotes⟩ := exact source mem_cons_self agree
      unseen.left (selfAgrees.mono (subset_append_left ..)) isFirst
    have selfRest := (selfAgrees.mono (subset_append_right ..)).reading (directNames [source])
    obtain ⟨rfl, meanings, areMeanings, denote⟩ := ih
      (fun other member => exact other (mem_cons_of_mem _ member))
      (NamesAgree.reading agree _) unseen.right selfRest isRest
    refine ⟨Binder.reading_append .., ?_⟩
    rw [sourceMeanings]
    exact exists_bind isMeaning (exists_bind areMeanings ⟨_, rfl, .cons denotes denote⟩)

theorem planNested_exact {queries : List (Query D)}
    (exact : ∀ query ∈ queries, query.Exact catalog allowance) {scope : Scope}
    (agree : NamesAgree allowance binder frames) (unseen : Unseen binder (nestedNames queries))
    (planned : planNested catalog queries scope binder = .ok (bodies, next)) :
    next = binder ∧ ∃ meanings, nestedMeanings catalog allowance queries frames scope =
      some meanings ∧ NestedDenote allowance bodies meanings := by
  induction queries generalizing next bodies with
  | nil =>
    cases planned
    exact ⟨rfl, [], rfl, .nil⟩
  | cons query queries ih =>
    rw [planNested] at planned
    obtain ⟨⟨first, middle⟩, isFirst, planned⟩ := bind_eq_ok planned
    obtain ⟨⟨rest, last⟩, isRest, planned⟩ := bind_eq_ok planned
    cases planned
    obtain ⟨rfl, meaning, isMeaning, denotes⟩ :=
      exact query mem_cons_self agree unseen.left isFirst
    obtain ⟨rfl, meanings, areMeanings, denote⟩ := ih
      (fun other member => exact other (mem_cons_of_mem _ member)) unseen.right isRest
    refine ⟨rfl, ?_⟩
    rw [nestedMeanings]
    exact exists_bind isMeaning (exists_bind areMeanings ⟨_, rfl, .cons denotes denote⟩)

end InlaySql.Planner
