import InlaySql.Sql.CatalogCalls

/-!
# What the calls on a catalog come to

Each method, run step by step, is the catalog function of its name, and changes nothing when
that function refuses. The exception is `rename_column`, which renames the table's column and
then stops when a `CHECK` cannot be rewritten. What the planner has checked about a table it
hands over is here too.
-/

namespace InlaySql.Sql

open List Option Lib
open Stateful

/-! ## Name maps -/

namespace NameMap

variable {α : Type} {map : NameMap α} {key other : String} {value : α}

theorem getElem?_insert : (map.insert key value)[other]? =
    if key = other then some value else map[other]? := by
  simp [Std.ExtTreeMap.getElem?_insert]

theorem getElem?_erase : (map.erase key)[other]? = if key = other then none else map[other]? := by
  simp [Std.ExtTreeMap.getElem?_erase]

variable {update : α -> α}

theorem getElem?_modify : (map.modify key update)[other]? =
    if key = other then (map[other]?).map update else map[other]? := by
  rw [Std.ExtTreeMap.getElem?_modify]
  by_cases same : key = other
  · subst same
    simp
  · simp [same]

theorem modify_eq_insert (stored : map[key]? = some value) :
    map.modify key update = map.insert key (update value) := by
  apply Std.ExtTreeMap.ext_getElem?
  intro other
  rw [getElem?_modify, getElem?_insert]
  by_cases same : key = other
  · subst same
    simp [stored]
  · rw [if_neg same, if_neg same]

theorem insert_insert {later : α} : (map.insert key value).insert key later = map.insert key later := by
  apply Std.ExtTreeMap.ext_getElem?
  intro other
  rw [getElem?_insert, getElem?_insert, getElem?_insert]
  split <;> rfl

end NameMap

theorem sameName_iff {left right : String} : sameName left right = true ↔ lower left = lower right := by
  simp [sameName]

/-! ## The columns of a table -/

namespace Table

/-- The table has a column of that name. -/
def Has (self : Table) (name : String) : Prop := (self.column name).isSome

variable {self : Table}

section

variable {name : String}

variable {ordinal : Nat} {column : Column}

theorem ordinal_eq_some (found : self.ordinal name = some ordinal) :
    ∃ column, self.columns[ordinal]? = some column ∧ lower column.name = lower name := by
  obtain ⟨inside, same, -⟩ := findIdx?_eq_some_iff_getElem.mp found
  exact ⟨_, getElem?_eq_getElem inside, sameName_iff.mp same⟩

theorem column_eq_some (found : self.column name = some (ordinal, column)) :
    self.ordinal name = some ordinal ∧ self.columns[ordinal]? = some column := by
  unfold Table.column at found
  cases position : self.ordinal name with
  | none => simp [position] at found
  | some place =>
    cases stored : self.columns[place]? with
    | none => simp [position, stored] at found
    | some value =>
      simp only [position, stored, bind_eq_bind, bind_some, Option.pure_def,
        Option.some.injEq, Prod.mk.injEq] at found
      exact ⟨by rw [found.1], by rw [<- found.1, <- found.2, stored]⟩

theorem has_iff : self.Has name ↔ ∃ column ∈ self.columns, lower column.name = lower name := by
  constructor
  · intro has
    obtain ⟨⟨ordinal, column⟩, found⟩ := isSome_iff_exists.mp has
    obtain ⟨position, stored⟩ := column_eq_some found
    obtain ⟨same, at_ordinal, spelled⟩ := ordinal_eq_some position
    exact ⟨same, mem_of_getElem? at_ordinal, spelled⟩
  · rintro ⟨column, member, same⟩
    have found : (self.ordinal name).isSome := by
      rw [Table.ordinal, findIdx?_isSome, List.any_eq_true]
      exact ⟨column, member, sameName_iff.mpr same⟩
    obtain ⟨ordinal, position⟩ := isSome_iff_exists.mp found
    obtain ⟨stored, at_ordinal, -⟩ := ordinal_eq_some position
    simp [Has, Table.column, position, at_ordinal]

theorem requireColumn_eq_ok (found : self.requireColumn name = .ok (ordinal, column)) :
    self.columns[ordinal]? = some column ∧ lower column.name = lower name := by
  unfold requireColumn at found
  split at found
  · rename_i pair present
    cases found
    obtain ⟨position, stored⟩ := column_eq_some present
    obtain ⟨same, at_ordinal, spelled⟩ := ordinal_eq_some position
    rw [stored] at at_ordinal
    cases at_ordinal
    exact ⟨stored, spelled⟩
  · cases found

theorem has_of_requireColumn {pair : Nat × Column} (found : self.requireColumn name = .ok pair) :
    self.Has name := by
  unfold requireColumn at found
  split at found
  · rename_i present
    simp [Has, present]
  · cases found

end

theorem Has.mono {other : Table} {name : String} (has : self.Has name)
    (more : ∀ column ∈ self.columns, column ∈ other.columns) : other.Has name := by
  obtain ⟨column, member, same⟩ := has_iff.mp has
  exact has_iff.mpr ⟨column, more column member, same⟩

variable {column : Column}

theorem has_renamed {old new : String} {ordinal : Nat}
    (found : self.requireColumn old = .ok (ordinal, column)) {name : String}
    (has : (self.Has name ∧ lower name ≠ lower old) ∨ lower name = lower new) :
    ({ self with columns := self.columns.modify ordinal ({ · with name := new }) } : Table).Has
      name := by
  obtain ⟨stored, spelled⟩ := requireColumn_eq_ok found
  rw [has_iff]
  rcases has with ⟨has, different⟩ | same
  · obtain ⟨other, member, same⟩ := has_iff.mp has
    obtain ⟨position, at_position⟩ := mem_iff_getElem?.mp member
    have apart : ordinal ≠ position := by
      rintro rfl
      rw [stored] at at_position
      cases at_position
      exact different (same.symm.trans spelled)
    refine ⟨other, mem_of_getElem? (i := position) ?_, same⟩
    simp [apart, at_position]
  · refine ⟨{ column with name := new }, mem_of_getElem? (i := ordinal) ?_, same.symm⟩
    simp [stored]

theorem has_erased {ordinal : Nat} (stored : self.columns[ordinal]? = some column) {name : String}
    (has : self.Has name) (different : lower name ≠ lower column.name) :
    ({ self with columns := self.columns.eraseIdx ordinal } : Table).Has name := by
  obtain ⟨other, member, same⟩ := has_iff.mp has
  obtain ⟨position, at_position⟩ := mem_iff_getElem?.mp member
  have apart : position ≠ ordinal := by
    rintro rfl
    rw [stored] at at_position
    cases at_position
    exact different same.symm
  exact has_iff.mpr ⟨other, mem_eraseIdx_iff_getElem?.mpr ⟨position, apart, at_position⟩, same⟩

end Table

variable {table : Table} {constraints : TableConstraints}

theorem has_of_requireColumns {columns : List String}
    (passed : Catalog.requireColumns table columns = .ok ()) :
    ∀ name ∈ columns, table.Has name := by
  induction columns with
  | nil => simp
  | cons first columns ih =>
    obtain ⟨_, one, rest⟩ := Lib.bind_eq_ok passed
    obtain ⟨pair, found, -⟩ := Lib.bind_eq_ok one
    intro name member
    rcases mem_cons.mp member with rfl | later
    · exact Table.has_of_requireColumn found
    · exact ih rest name later

/-! ## The names of constraints -/

/-- The lowercased names of the `UNIQUE` groups that have one. -/
def TableConstraints.names (self : TableConstraints) : List String :=
  self.unique.filterMap fun group => group.name.map lower

theorem mem_names_iff {name : String} :
    (constraints.unique.any fun group => group.name.any (sameName · name)) = true ↔
      lower name ∈ constraints.names := by
  simp only [List.any_eq_true, Option.any_eq_true, sameName_iff, TableConstraints.names,
    mem_filterMap, map_eq_some_iff]

namespace Catalog

theorem uniqueConstraint_eq_none {self : Catalog} {name : String}
    (absent : self.uniqueConstraint name = none) {key : String} {constraints : TableConstraints}
    (stored : self.constraintsOf[key]? = some constraints) : lower name ∉ constraints.names := by
  rw [uniqueConstraint, findSome?_eq_none_iff] at absent
  have none := absent (key, constraints) (Std.ExtTreeMap.mem_toList_iff_getElem?_eq_some.mpr stored)
  intro member
  simp [mem_names_iff.mpr member] at none

theorem uniqueConstraint_eq_some {self : Catalog} {name key : String}
    (present : self.uniqueConstraint name = some key) :
    ∃ constraints, self.constraintsOf[key]? = some constraints ∧ lower name ∈ constraints.names := by
  rw [uniqueConstraint, findSome?_eq_some_iff] at present
  obtain ⟨before, ⟨table, constraints⟩, after, split, here, -⟩ := present
  have member : (table, constraints) ∈ self.constraintsOf.toList := by rw [split]; simp
  simp only [ite_none_right_eq_some, Option.some.injEq] at here
  obtain ⟨named, rfl⟩ := here
  exact ⟨constraints, Std.ExtTreeMap.mem_toList_iff_getElem?_eq_some.mp member,
    mem_names_iff.mp named⟩

end Catalog

/-- The outcome of a method that checks everything before it changes anything. -/
def settle (result : Except Error Catalog) (catalog : Catalog) : Except Error Unit × Catalog :=
  match result with
  | .ok next => (.ok (), next)
  | .error error => (.error error, catalog)

/-! ## The methods and what they come to -/

namespace CatalogMethod

variable {catalog : Catalog}

theorem createTableWith_apply (table : Table) (constraints : TableConstraints) :
    createTableWith table constraints catalog =
      settle (catalog.createTableWith table constraints) catalog := by
  unfold createTableWith Catalog.createTableWith
  cases taken : catalog.tables[lower table.name]? with
  | some found => simp only [Stateful.bind_apply, gets_apply, taken, isSome_some, ↓reduceIte]; rfl
  | none =>
    simp only [Stateful.bind_apply, gets_apply, taken, isSome_none, Bool.false_eq_true, ↓reduceIte,
      ofExcept_apply]
    cases Catalog.requireColumns table constraints.named with
    | error error => rfl
    | ok value => cases constraints.isEmpty <;> rfl

theorem createTempTable_apply (table : Table) (constraints : TableConstraints) :
    createTempTable table constraints catalog =
      settle (catalog.createTempTable table constraints) catalog := by
  unfold createTempTable Catalog.createTempTable
  cases taken : catalog.tempTables[lower table.name]? with
  | some found => simp only [Stateful.bind_apply, gets_apply, taken, isSome_some, ↓reduceIte]; rfl
  | none =>
    simp only [Stateful.bind_apply, gets_apply, taken, isSome_none, Bool.false_eq_true, ↓reduceIte,
      ofExcept_apply]
    cases Catalog.requireColumns table constraints.named with
    | error error => rfl
    | ok value => cases constraints.isEmpty <;> rfl

theorem dropTable_apply (name : String) :
    dropTable name catalog = settle ((catalog.dropTable name).map (·.2.2)) catalog := by
  unfold dropTable Catalog.dropTable
  cases temporary : catalog.tempTables[lower name]? with
  | some found => simp only [Stateful.bind_apply, gets_apply, temporary, isSome_some, ↓reduceIte]; rfl
  | none =>
    cases stored : catalog.tables[lower name]? with
    | none =>
      simp only [Stateful.bind_apply, gets_apply, temporary, stored, isSome_none,
        isNone_none, Bool.false_eq_true, ↓reduceIte]
      rfl
    | some table =>
      simp only [Stateful.bind_apply, gets_apply, temporary, stored, isSome_none,
        isNone_some, Bool.false_eq_true, ↓reduceIte]
      rfl

theorem renameTable_apply (source target : String) :
    renameTable source target catalog = settle (catalog.renameTable source target) catalog := by
  unfold renameTable Catalog.renameTable
  cases stored : catalog.tables[lower source]? with
  | none => simp only [Stateful.bind_apply, gets_apply, stored]; rfl
  | some table =>
    simp only [Stateful.bind_apply, gets_apply, stored]
    cases decide (lower source ≠ lower target) && (catalog.tables[lower target]?).isSome with
    | true => rfl
    | false =>
      cases declared : catalog.constraintsOf[lower source]? with
      | none =>
        simp only [Stateful.bind_apply, change_apply, gets_apply, declared, Bool.false_eq_true,
          ↓reduceIte]
        rfl
      | some constraints =>
        simp only [Stateful.bind_apply, change_apply, gets_apply, declared, Bool.false_eq_true,
          ↓reduceIte]
        rfl

theorem addColumn_apply (table : String) (column : Column) :
    addColumn table column catalog = settle (catalog.addColumn table column) catalog := by
  unfold addColumn Catalog.addColumn
  simp only [Stateful.bind_apply, tryGets_apply]
  cases catalog.requireTableMut table with
  | error error => rfl
  | ok target =>
    simp only [ok_bind]
    cases (target.column column.name).isSome <;> rfl

theorem dropColumn_apply (checkMentions : String -> String -> Except Error Bool)
    (table column : String) :
    dropColumn checkMentions table column catalog =
      settle ((catalog.dropColumn table column checkMentions).map (·.2)) catalog := by
  unfold dropColumn Catalog.dropColumn
  cases droppable : catalog.droppableColumn table column checkMentions with
  | error error => simp only [Stateful.bind_apply, tryGets_apply, droppable]; rfl
  | ok ordinal =>
    simp only [Stateful.bind_apply, tryGets_apply, droppable]
    cases catalog.requireTableMut table with
    | error error => rfl
    | ok target => rfl

theorem dropIndex_apply (name : String) :
    dropIndex name catalog = settle ((catalog.dropIndex name).map (·.2)) catalog := by
  unfold dropIndex Catalog.dropIndex
  cases stored : catalog.indexes[lower name]? with
  | none => simp only [Stateful.bind_apply, gets_apply, stored, isNone_none, ↓reduceIte]; rfl
  | some index =>
    simp only [Stateful.bind_apply, gets_apply, stored, isNone_some, Bool.false_eq_true, ↓reduceIte]
    rfl

theorem createUniqueConstraint_apply (table : String) (constraint : UniqueConstraint) :
    createUniqueConstraint table constraint catalog =
      settle (catalog.createUniqueConstraint table constraint) catalog := by
  unfold createUniqueConstraint Catalog.createUniqueConstraint
  cases found : catalog.requireTable table with
  | error error => simp only [Stateful.bind_apply, tryGets_apply, found]; rfl
  | ok definition =>
    simp only [Stateful.bind_apply, tryGets_apply, found, ofExcept_apply, gets_apply, ok_bind]
    cases checked : Catalog.requireColumns definition constraint.columns with
    | error error => rfl
    | ok value =>
      simp only [ok_bind]
      cases named : constraint.name with
      | none => rfl
      | some name =>
        simp only [any_some, getD_some]
        cases (catalog.indexes[lower name]?).isSome || (catalog.uniqueConstraint name).isSome with
        | true => rfl
        | false => rfl

end CatalogMethod

namespace Catalog

variable {self next : Catalog}

theorem createIndex_eq_ok {index : Index} (created : self.createIndex index = .ok next) :
    next = { self with indexes := self.indexes.insert (lower index.name) index } ∧
      self.indexNameTaken index = false ∧ index.columns ≠ [] ∧
      index.collations.length = index.columns.length := by
  unfold createIndex at created
  obtain ⟨free, created⟩ := guard_eq_ok created
  obtain ⟨some, created⟩ := guard_eq_ok created
  obtain ⟨collated, created⟩ := guard_eq_ok created
  generalize List.find? _ _ = existing at created
  cases existing with
  | some found => cases created
  | none =>
    obtain ⟨table, -, created⟩ := Lib.bind_eq_ok created
    obtain ⟨-, created⟩ := guard_eq_ok created
    obtain ⟨-, created⟩ := guard_eq_ok created
    obtain ⟨-, created⟩ := guard_eq_ok created
    obtain ⟨_, -, created⟩ := Lib.bind_eq_ok created
    cases created
    exact ⟨rfl, by simpa using free, by simpa using some, by simpa using collated⟩

end Catalog

theorem CatalogMethod.createIndex_apply {catalog : Catalog} (index : Index) :
    CatalogMethod.createIndex index catalog = settle (catalog.createIndex index) catalog := by
  unfold CatalogMethod.createIndex
  cases created : catalog.createIndex index with
  | error error => simp only [Stateful.bind_apply, tryGets_apply, created]; rfl
  | ok next =>
    obtain ⟨rfl, -⟩ := Catalog.createIndex_eq_ok created
    simp only [Stateful.bind_apply, tryGets_apply, created]
    rfl

/-! ## Renaming a column -/

namespace Catalog

/-- The catalog with the constraints of one durable table replaced. -/
def withConstraints (self : Catalog) (key : String) (constraints : TableConstraints) : Catalog :=
  { self with constraintsOf := self.constraintsOf.insert key constraints }

/-- The catalog with the indexes of one table naming the new column. -/
def reindexed (self : Catalog) (key old new : String) : Catalog :=
  { self with indexes := self.indexes.map fun _ index =>
      if index.table == key then
        { index with columns := index.columns.map fun column =>
            if column == lower old then lower new else column }
      else index }

/-- The table with one of its columns renamed. -/
def retitled (target : Table) (ordinal : Nat) (new : String) : Table :=
  { target with columns := target.columns.modify ordinal ({ · with name := new }) }

end Catalog

namespace CatalogMethod

open Catalog

variable {rewriteCheck : String -> Except Error String} {catalog : Catalog}

theorem rewriteChecks_apply (rewriteCheck : String -> Except Error String) (catalog : Catalog)
    (key : String) (constraints : TableConstraints)
    (checks : List (String × Nat)) :
    ∃ rewritten outcome,
      (checks.forM fun check => do setCheck key check.2 (<- ofExcept (rewriteCheck check.1)))
          (catalog.withConstraints key constraints) =
        (outcome, catalog.withConstraints key { constraints with checks := rewritten }) ∧
      ∀ error, outcome = .error error -> ∃ check ∈ checks, rewriteCheck check.1 = .error error := by
  induction checks generalizing constraints with
  | nil => exact ⟨constraints.checks, .ok (), rfl, nofun⟩
  | cons first checks ih =>
    cases rewrote : rewriteCheck first.1 with
    | error error =>
      refine ⟨constraints.checks, .error error, ?_, ?_⟩
      · change (do
          (do setCheck key first.2 (<- ofExcept (rewriteCheck first.1)))
          checks.forM _ : CatalogMethod Unit) _ = _
        simp only [Stateful.bind_apply, ofExcept_apply, rewrote]
      · rintro _ ⟨⟩
        exact ⟨first, mem_cons_self, rewrote⟩
    | ok text =>
      obtain ⟨rewritten, outcome, ran, failing⟩ :=
        ih { constraints with checks := constraints.checks.set first.2 text }
      refine ⟨rewritten, outcome, ?_, ?_⟩
      · change (do
          (do setCheck key first.2 (<- ofExcept (rewriteCheck first.1)))
          checks.forM _ : CatalogMethod Unit) _ = _
        have stored : (catalog.withConstraints key constraints).constraintsOf[key]? =
            some constraints := by
          simp [withConstraints]
        simp only [Stateful.bind_apply, ofExcept_apply, rewrote, setCheck, change_apply]
        rw [NameMap.modify_eq_insert stored]
        simp only [withConstraints, NameMap.insert_insert]
        exact ran
      · intro error failed
        obtain ⟨check, member, why⟩ := failing error failed
        exact ⟨check, mem_cons_of_mem _ member, why⟩

/-- What `rename_column` leaves: the catalog as it was; the table renamed and its constraints
with it, the checks only in part; or everything renamed. -/
theorem renameColumn_cases (table old new : String) :
    (∃ error, renameColumn rewriteCheck table old new catalog = (.error error, catalog)) ∨
    ∃ target ordinal column, catalog.tables[lower table]? = some target ∧
      target.requireColumn old = .ok (ordinal, column) ∧
      ((catalog.constraintsOf[lower table]? = none ∧
          renameColumn rewriteCheck table old new catalog = (.ok (),
            (catalog.setTable table (retitled target ordinal new)).reindexed (lower table) old new)) ∨
        ∃ constraints checks outcome, catalog.constraintsOf[lower table]? = some constraints ∧
          let renamed := (catalog.setTable table (retitled target ordinal new)).withConstraints
            (lower table) { constraints.renameColumn old new with checks }
          (outcome = .ok () ∧ renameColumn rewriteCheck table old new catalog =
              (outcome, renamed.reindexed (lower table) old new)) ∨
            ((∃ check ∈ constraints.checks, ∃ error, rewriteCheck check = .error error) ∧
              renameColumn rewriteCheck table old new catalog = (outcome, renamed))) := by
  unfold renameColumn
  simp only [Stateful.bind_apply, tryGets_apply, Catalog.requireTableMut]
  cases stored : catalog.tables[lower table]? with
  | none => exact .inl ⟨_, rfl⟩
  | some target =>
    simp only [ofExcept_apply]
    cases found : target.requireColumn old with
    | error error => exact .inl ⟨_, rfl⟩
    | ok pair =>
      obtain ⟨ordinal, column⟩ := pair
      cases taken : !sameName old new && (target.column new).isSome with
      | true => exact .inl ⟨_, rfl⟩
      | false =>
        refine .inr ⟨target, ordinal, column, rfl, found, ?_⟩
        have kept : (catalog.setTable table (retitled target ordinal new)).constraintsOf =
          catalog.constraintsOf := rfl
        simp only [Bool.false_eq_true, ↓reduceIte, Stateful.bind_apply, change_apply, gets_apply]
        cases declared : catalog.constraintsOf[lower table]? with
        | none =>
          refine .inl ⟨rfl, ?_⟩
          rw [<- kept] at declared
          simp only [retitled] at declared
          simp only [declared]
          rfl
        | some constraints =>
          right
          obtain ⟨checks, outcome, ran, failing⟩ :=
            rewriteChecks_apply rewriteCheck
              (catalog.setTable table (retitled target ordinal new)) (lower table)
              (constraints.renameColumn old new) constraints.checks.zipIdx
          rw [<- kept] at declared
          simp only [retitled, withConstraints] at declared ran
          simp only [declared, Stateful.bind_apply, setConstraints, change_apply, ran]
          cases outcome with
          | ok value => exact ⟨constraints, checks, .ok (), rfl, .inl ⟨rfl, rfl⟩⟩
          | error error =>
            obtain ⟨check, member, why⟩ := failing error rfl
            have declares := mem_of_getElem? (mem_zipIdx_iff_getElem?.mp member)
            exact ⟨constraints, checks, .error error, rfl, .inr
              ⟨⟨check.1, declares, error, why⟩, rfl⟩⟩

end CatalogMethod

/-! ## What the planner has checked -/

/-- A table the planner has accepted, with its constraints. -/
structure Planned (table : Table) (constraints : TableConstraints) : Prop where
  rowid : table.withoutRowid = false -> table.primaryKey = []
  key : ∀ name ∈ table.primaryKey, table.Has name
  named : ∀ name ∈ constraints.named, table.Has name
  unnamed : constraints.names = []
  temporary : table.temporary = true -> constraints.unique = []

theorem take_unnamed {draft : ColumnDraft} (option : ColumnOption)
    (unnamed : draft.constraints.names = []) : (draft.take option).constraints.names = [] := by
  cases option <;> simpa [ColumnDraft.take, TableConstraints.names] using unnamed

variable {draft : TableDraft} {create : CreateTable} {next drafted : TableDraft}

theorem takeColumn_unnamed {column : ColumnDef} (unnamed : draft.constraints.names = [])
    (taken : draft.takeColumn create column = .ok next) : next.constraints.names = [] := by
  unfold TableDraft.takeColumn at taken
  obtain ⟨-, taken⟩ := guard_eq_ok taken
  obtain ⟨-, taken⟩ := guard_eq_ok taken
  obtain ⟨-, taken⟩ := guard_eq_ok taken
  cases taken
  have folded : ∀ (options : List ColumnOption) (start : ColumnDraft),
      start.constraints.names = [] → (options.foldl ColumnDraft.take start).constraints.names = [] := by
    intro options
    induction options with
    | nil => exact fun start none => none
    | cons option options ih => exact fun start none => ih _ (take_unnamed option none)
  exact folded column.options _ unnamed

theorem takeConstraint_unnamed {constraint : TableConstraint}
    (unnamed : draft.constraints.names = [])
    (taken : draft.takeConstraint create constraint = .ok next) : next.constraints.names = [] := by
  unfold TableDraft.takeConstraint at taken
  cases constraint with
  | primaryKey columns =>
    obtain ⟨-, taken⟩ := guard_eq_ok taken
    obtain ⟨_, -, taken⟩ := Lib.bind_eq_ok taken
    cases taken
    exact unnamed
  | unique columns =>
    obtain ⟨_, -, taken⟩ := Lib.bind_eq_ok taken
    cases taken
    simpa [TableConstraints.names] using unnamed
  | check text =>
    cases taken
    exact unnamed
  | foreignKey key =>
    obtain ⟨-, taken⟩ := guard_eq_ok taken
    cases taken
    exact unnamed

theorem draft_unnamed (planned : create.draft = .ok drafted) : drafted.constraints.names = [] := by
  unfold CreateTable.draft at planned
  obtain ⟨columns, first, planned⟩ := Lib.bind_eq_ok planned
  obtain ⟨both, second, planned⟩ := Lib.bind_eq_ok planned
  obtain ⟨-, planned⟩ := guard_eq_ok planned
  cases planned
  refine foldlM_keeps (fun draft => draft.constraints.names = [])
    (fun _ _ _ => takeConstraint_unnamed) ?_ second
  exact foldlM_keeps (fun draft => draft.constraints.names = []) (fun _ _ _ => takeColumn_unnamed)
    rfl first

theorem names_modify (columns : List Column) (ordinal : Nat) :
    (columns.modify ordinal ({ · with notNull := true })).map (·.name) = columns.map (·.name) := by
  apply ext_getElem?
  intro position
  simp only [getElem?_map, List.getElem?_modify]
  cases columns[position]? with
  | none => rfl
  | some column => by_cases here : ordinal = position <;> simp [here]

theorem requireKey_eq_ok {table : String} {columns after : List Column} {key : List String}
    (required : requireKey table columns key = .ok after) :
    after.map (·.name) = columns.map (·.name) ∧
      ∀ name ∈ key, ∃ column ∈ columns, lower column.name = lower name := by
  induction key generalizing columns with
  | nil =>
    cases required
    exact ⟨rfl, nofun⟩
  | cons first key ih =>
    unfold requireKey at required
    rw [foldlM_cons] at required
    obtain ⟨between, one, rest⟩ := Lib.bind_eq_ok required
    obtain ⟨ordinal, found, one⟩ := Lib.bind_eq_ok one
    cases one
    obtain ⟨same, later⟩ := ih rest
    have titles := names_modify columns ordinal
    refine ⟨same.trans titles, ?_⟩
    intro name member
    rcases mem_cons.mp member with rfl | inside
    · unfold requireColumnOf at found
      split at found
      · rename_i place position
        obtain ⟨inside, spelled, -⟩ := findIdx?_eq_some_iff_getElem.mp position
        exact ⟨_, getElem_mem inside, sameName_iff.mp spelled⟩
      · cases found
    · obtain ⟨column, inColumns, spelled⟩ := later name inside
      have titled : column.name ∈ columns.map (·.name) := by
        rw [<- titles]
        exact List.mem_map_of_mem inColumns
      obtain ⟨other, inside, sameTitle⟩ := List.mem_map.mp titled
      exact ⟨other, inside, by rw [sameTitle, spelled]⟩

theorem planWithoutRowid_planned (unnamed : drafted.constraints.names = [])
    (planned : planWithoutRowid create drafted = .ok (table, constraints)) :
    Planned table constraints := by
  unfold planWithoutRowid at planned
  split at planned
  · cases planned
  rename_i key declared
  split at planned
  · cases planned
  rename_i none
  obtain ⟨columns, required, planned⟩ := Lib.bind_eq_ok planned
  obtain ⟨_, checked, planned⟩ := Lib.bind_eq_ok planned
  cases planned
  obtain ⟨titles, keys⟩ := requireKey_eq_ok required
  refine ⟨nofun, ?_, has_of_requireColumns checked, unnamed, fun _ => none⟩
  intro name member
  obtain ⟨column, inside, spelled⟩ := keys name member
  have titled : column.name ∈ columns.map (·.name) := by
    rw [titles]
    exact List.mem_map_of_mem inside
  obtain ⟨other, inside, sameTitle⟩ := List.mem_map.mp titled
  exact Table.has_iff.mpr ⟨other, inside, by rw [sameTitle, spelled]⟩

theorem foldPrimaryKey_unnamed (unnamed : drafted.constraints.names = [])
    (folded : foldPrimaryKey create drafted = .ok next) : next.constraints.names = [] := by
  unfold foldPrimaryKey at folded
  split at folded
  · cases folded
    exact unnamed
  rename_i key declared
  have aliased : ∀ ordinal, { drafted with
      columns := drafted.columns.modify ordinal ({ · with primaryKey := true }) } = next ->
      next.constraints.names = [] := by
    rintro ordinal rfl
    exact unnamed
  have grouped : { drafted with
      constraints := { drafted.constraints with
        unique := drafted.constraints.unique ++ [⟨none, key⟩] } } = next ->
      next.constraints.names = [] := by
    rintro rfl
    simpa [TableConstraints.names] using unnamed
  simp only at folded
  split at folded
  · obtain ⟨ordinal, -, folded⟩ := Lib.bind_eq_ok folded
    obtain ⟨rowidAlias, -, folded⟩ := Lib.bind_eq_ok folded
    split at folded
    · exact aliased _ (Except.ok.inj folded)
    · exact grouped (Except.ok.inj folded)
  · exact grouped (Except.ok.inj folded)

theorem planCreateTable_planned (planned : planCreateTable create = .ok (table, constraints)) :
    Planned table constraints := by
  unfold planCreateTable at planned
  obtain ⟨drafted, draft, planned⟩ := Lib.bind_eq_ok planned
  have unnamed := draft_unnamed draft
  split at planned
  · exact planWithoutRowid_planned unnamed planned
  · obtain ⟨folded, fold, planned⟩ := Lib.bind_eq_ok planned
    split at planned
    · cases planned
    · rename_i unlike
      obtain ⟨_, checked, planned⟩ := Lib.bind_eq_ok planned
      cases planned
      refine ⟨fun _ => rfl, nofun, has_of_requireColumns checked,
        foldPrimaryKey_unnamed unnamed fold, ?_⟩
      intro temporary
      cases groups : folded.constraints.unique with
      | nil => rfl
      | cons group rest => exact (unlike group rest temporary groups).elim

theorem planCreateTableAsSelect_planned {name : String} {temporary : Bool}
    {labels : List (String × Option DataType)}
    (planned : planCreateTableAsSelect name temporary labels = .ok (table, constraints)) :
    Planned table constraints ∧ table.temporary = temporary := by
  unfold planCreateTableAsSelect at planned
  obtain ⟨columns, -, planned⟩ := Lib.bind_eq_ok planned
  obtain ⟨-, planned⟩ := guard_eq_ok planned
  cases planned
  exact ⟨⟨fun _ => rfl, nofun, nofun, rfl, fun _ => rfl⟩, rfl⟩

end InlaySql.Sql
