import InlaySql.Sql.CatalogKept

/-!
# Well-formed catalogs

A catalog is well formed when every column name it records, in a primary key list, a `UNIQUE`
group, a foreign key or an index, is a column of the table it is recorded for. Renaming a column
leaves the primary key list of a `WITHOUT ROWID` table behind, and stops halfway when a `CHECK`
cannot be rewritten; every run without such a call keeps the catalog well formed.
-/

namespace InlaySql.Sql

open List Lib
open Stateful

/-- Every name recorded for a table is a column of it, every index is on a durable table under
its lowercased name, and no two indexes and no two constraints share a name. A `CREATE UNIQUE
INDEX` declares a constraint and the index that enforces it under one name. -/
structure WellFormed (catalog : Catalog) : Prop where
  primaryKey : ∀ {key : String} {table : Table}, catalog.tables[key]? = some table ∨
    catalog.tempTables[key]? = some table -> ∀ name ∈ table.primaryKey, table.Has name
  constraints : ∀ {key : String} {constraints : TableConstraints},
    catalog.constraintsOf[key]? = some constraints ->
      ∃ table, catalog.tables[key]? = some table ∧
        (∀ group ∈ constraints.unique, ∀ name ∈ group.columns, table.Has name) ∧
        ∀ reference ∈ constraints.foreignKeys, ∀ name ∈ reference.columns, table.Has name
  tempConstraints : ∀ {key : String} {constraints : TableConstraints},
    catalog.tempConstraints[key]? = some constraints ->
      ∃ table, catalog.tempTables[key]? = some table ∧
        (∀ group ∈ constraints.unique, ∀ name ∈ group.columns, table.Has name) ∧
        ∀ reference ∈ constraints.foreignKeys, ∀ name ∈ reference.columns, table.Has name
  indexes : ∀ {key : String} {index : Index}, catalog.indexes[key]? = some index ->
    lower index.table = index.table ∧ ∃ table, catalog.tables[index.table]? = some table ∧
      ∀ name ∈ index.columns, table.Has name
  indexNames : ∀ {key other : String} {index another : Index}, catalog.indexes[key]? = some index ->
    catalog.indexes[other]? = some another -> lower index.name = lower another.name -> key = other
  constraintNames : ∀ {key : String} {constraints : TableConstraints},
    catalog.constraintsOf[key]? = some constraints -> constraints.names.Nodup
  constraintTables : ∀ {key other : String} {constraints others : TableConstraints} {name : String},
    catalog.constraintsOf[key]? = some constraints -> catalog.constraintsOf[other]? = some others ->
      name ∈ constraints.names -> name ∈ others.names -> key = other
  shared : ∀ {key other : String} {constraints : TableConstraints} {index : Index},
    catalog.constraintsOf[key]? = some constraints -> catalog.indexes[other]? = some index ->
      lower index.name ∈ constraints.names ->
        index.unique = true ∧ index.kind = .btree ∧ index.table = key

/-- What is above a filed catalog: keys and indexes name columns of their table. -/
structure Rooted (catalog : Catalog) : Prop where
  primaryKey : ∀ {key : String} {table : Table}, catalog.tables[key]? = some table ->
    ∀ name ∈ table.primaryKey, table.Has name
  indexes : ∀ {key : String} {index : Index} {table : Table}, catalog.indexes[key]? = some index ->
    catalog.tables[index.table]? = some table -> ∀ name ∈ index.columns, table.Has name

variable {catalog : Catalog}

theorem wellFormed_of_rooted (filed : Filed catalog) (rooted : Rooted catalog) :
    WellFormed catalog := by
  have split : ∀ {table : Table} {constraints : TableConstraints},
      (∀ name ∈ constraints.named, table.Has name) ->
      (∀ group ∈ constraints.unique, ∀ name ∈ group.columns, table.Has name) ∧
        ∀ reference ∈ constraints.foreignKeys, ∀ name ∈ reference.columns, table.Has name := by
    intro table constraints named
    constructor
    · exact fun group inside name member => named name (mem_append_left _
        (mem_flatMap.mpr ⟨group, inside, member⟩))
    · exact fun reference inside name member => named name (mem_append_right _
        (mem_flatMap.mpr ⟨reference, inside, member⟩))
  constructor
  case primaryKey =>
    rintro key table (durable | temporary)
    · exact rooted.primaryKey durable
    · exact (filed.tempTables temporary).2.2
  case constraints =>
    intro key constraints stored
    obtain ⟨table, present, named⟩ := filed.constraints stored
    exact ⟨table, present, split named⟩
  case tempConstraints =>
    intro key constraints stored
    obtain ⟨-, table, present, named⟩ := filed.tempConstraints stored
    exact ⟨table, present, split named⟩
  case indexes =>
    intro key index stored
    obtain ⟨-, spelled, table, present⟩ := filed.indexes stored
    exact ⟨spelled.table, table, present, rooted.indexes stored present⟩
  case indexNames =>
    intro key other index another stored otherStored same
    rw [(filed.indexes stored).1, (filed.indexes otherStored).1, same]
  case constraintNames => exact filed.groups
  case constraintTables => exact filed.apart
  case shared =>
    intro key other constraints index declared stored member
    rw [<- (filed.indexes stored).1] at member
    exact filed.shared declared member stored

/-! ## The calls that keep it -/

/-- A `RENAME COLUMN` the catalog survives: the column is in no primary key list, or keeps its
name but for the case of its letters, and every `CHECK` of the table can be rewritten. -/
def Careful (texts : CheckTexts) (catalog : Catalog) : Call -> Prop
  | .renameColumn table old new =>
    (∀ target, catalog.tables[lower table]? = some target ->
      ∀ name ∈ target.primaryKey, lower name = lower old -> lower old = lower new) ∧
    ∀ constraints, catalog.constraintsOf[lower table]? = some constraints ->
      ∀ check ∈ constraints.checks, ∃ text,
        texts.rewriteColumnReference check old new = .ok text
  | _ => True

section Steps

variable {catalog next : Catalog}

variable {name : String}

section

variable (rooted : Rooted catalog)

include rooted

/-- One durable table changed in its columns only, to a table with every column its key and its
indexes name. -/
theorem Rooted.setTable {after : Table} (keyed : ∀ column ∈ after.primaryKey, after.Has column)
    (indexed : ∀ {key : String} {index : Index}, catalog.indexes[key]? = some index -> index.table =
      lower name -> ∀ column ∈ index.columns, after.Has column) :
    Rooted (catalog.setTable name after) := by
  constructor
  · intro key table present
    rw [Catalog.setTable, NameMap.getElem?_insert] at present
    split at present
    · cases present
      exact keyed
    · exact rooted.primaryKey present
  · intro key index table stored present
    rw [Catalog.setTable, NameMap.getElem?_insert] at present
    split at present
    · rename_i here
      cases present
      exact indexed stored here.symm
    · exact rooted.indexes stored present

theorem Rooted.createTableWith (filed : Filed catalog) {table : Table}
    {constraints : TableConstraints} (planned : Planned table constraints)
    (created : catalog.createTableWith table constraints = .ok next) : Rooted next := by
  obtain ⟨free, rfl⟩ := Catalog.createTableWith_eq_ok created
  constructor
  · intro key stored present
    rw [NameMap.getElem?_insert] at present
    split at present
    · cases present
      exact planned.key
    · exact rooted.primaryKey present
  · intro key index stored found present
    rw [NameMap.getElem?_insert] at present
    split at present
    · rename_i here
      obtain ⟨-, -, before, onTable⟩ := filed.indexes found
      rw [<- here, free] at onTable
      cases onTable
    · exact rooted.indexes found present

theorem Rooted.dropTable {table : Table} {indexes : List Index}
    (dropped : catalog.dropTable name = .ok (table, indexes, next)) : Rooted next := by
  rcases Catalog.dropTable_eq_ok dropped with ⟨-, rfl⟩ | ⟨-, -, rfl⟩
  · exact ⟨rooted.primaryKey, rooted.indexes⟩
  · constructor
    · intro key stored present
      rw [NameMap.getElem?_erase] at present
      split at present
      · cases present
      · exact rooted.primaryKey present
    · intro key index stored found present
      rw [NameMap.getElem?_erase] at present
      rw [Std.ExtTreeMap.getElem?_filter', Option.filter_eq_some_iff] at found
      split at present
      · cases present
      · exact rooted.indexes found.1 present

theorem Rooted.renameTable (filed : Filed catalog) {source target : String}
    (renamed : catalog.renameTable source target = .ok next) :
    Rooted next := by
  obtain ⟨table, found, free, rfl⟩ := Catalog.renameTable_eq_ok renamed
  constructor
  · intro key stored present
    rw [NameMap.getElem?_insert, NameMap.getElem?_erase] at present
    split at present
    · cases present
      intro name member
      exact (rooted.primaryKey found name member).mono fun _ => id
    · split at present
      · cases present
      · exact rooted.primaryKey present
  · intro key index stored foundIndex present
    rw [NameMap.getElem?_insert, NameMap.getElem?_erase] at present
    rw [Std.ExtTreeMap.getElem?_map, Option.map_eq_some_iff] at foundIndex
    obtain ⟨before, old, rfl⟩ := foundIndex
    obtain ⟨-, -, onTable, onFound⟩ := filed.indexes old
    by_cases here : before.table = lower source
    · have chosen : (before.table == lower source) = true := by simpa using here
      simp only [chosen, ↓reduceIte] at present ⊢
      cases present
      have onOld : catalog.tables[before.table]? = some table := by rw [here, found]
      exact fun name member => (rooted.indexes old onOld name member).mono fun _ => id
    · have other : (before.table == lower source) = false := by simpa using here
      simp only [other, Bool.false_eq_true, ↓reduceIte] at present ⊢
      split at present
      · rename_i same
        rw [<- same, free (fun equal => here (by rw [<- same, equal]))] at onFound
        cases onFound
      · split at present
        · cases present
        · exact rooted.indexes old present

theorem Rooted.addColumn {column : Column} (added : catalog.addColumn name column = .ok next) :
    Rooted next := by
  unfold Catalog.addColumn Catalog.requireTableMut at added
  obtain ⟨target, found, added⟩ := Lib.bind_eq_ok added
  obtain ⟨-, added⟩ := guard_eq_ok added
  cases added
  split at found
  · rename_i before present
    cases found
    refine rooted.setTable ?_ ?_
    · exact fun name member => (rooted.primaryKey present name member).mono
        fun _ inside => mem_append_left _ inside
    · intro key index stored here name member
      exact (rooted.indexes stored (by rw [here, present]) name member).mono
        fun _ inside => mem_append_left _ inside
  · cases found

theorem Rooted.dropColumn (filed : Filed catalog) {column : String} {ordinal : Nat} {before : Table}
    {checkMentions : String -> String -> Except Error Bool}
    (unshadowed : catalog.tempTables[lower name]? = none)
    (found : catalog.tables[lower name]? = some before) (rowid : before.withoutRowid = false)
    (dropped : catalog.dropColumn name column checkMentions = .ok (ordinal, next)) :
    Rooted next := by
  obtain ⟨target, droppable, present, rfl⟩ := Catalog.dropColumn_eq_ok dropped
  obtain ⟨visible, definition, seen, place, -, unindexed⟩ := Catalog.droppableColumn_eq_ok droppable
  obtain rfl : target = visible := by
    rw [Catalog.table, unshadowed, present] at seen
    exact Option.some.inj seen
  obtain rfl : target = before := by
    rw [present] at found
    exact Option.some.inj found
  refine rooted.setTable ?_ ?_
  · intro listed member
    rw [show target.primaryKey = [] from (filed.tables present).rowid rowid] at member
    cases member
  · intro key index stored here listed member
    refine Table.has_erased place (rooted.indexes stored (by rw [here, present]) listed member) ?_
    intro same
    obtain ⟨-, spelled, -⟩ := filed.indexes stored
    exact unindexed stored here (by rwa [<- same, spelled.columns listed member])

theorem Rooted.renameColumn (filed : Filed catalog) {texts : CheckTexts} {table old new : String}
    (careful : Careful texts catalog (.renameColumn table old new)) :
    Rooted (CatalogMethod.renameColumn (texts.rewriteColumnReference · old new) table old new
      catalog).2 := by
  obtain ⟨unkeyed, rewritable⟩ := careful
  have moved : ∀ {target : Table} {ordinal : Nat} {column : Column} {declared : NameMap TableConstraints},
      catalog.tables[lower table]? = some target ->
      target.requireColumn old = .ok (ordinal, column) ->
      Rooted ({ catalog.setTable table (Catalog.retitled target ordinal new) with
        constraintsOf := declared }.reindexed (lower table) old new) := by
    intro target ordinal column declared found named
    constructor
    · intro key stored present
      change (catalog.tables.insert (lower table) _)[key]? = some stored at present
      rw [NameMap.getElem?_insert] at present
      split at present
      · cases present
        intro name member
        by_cases same : lower name = lower old
        · exact Table.has_renamed named (.inr (same.trans (unkeyed target found name member same)))
        · exact Table.has_renamed named (.inl ⟨rooted.primaryKey found name member, same⟩)
      · exact rooted.primaryKey present
    · intro key index stored foundIndex present
      change (catalog.tables.insert (lower table) _)[index.table]? = some stored at present
      rw [Catalog.reindexed, Std.ExtTreeMap.getElem?_map, Option.map_eq_some_iff] at foundIndex
      obtain ⟨before, oldIndex, rfl⟩ := foundIndex
      rw [NameMap.getElem?_insert] at present
      by_cases here : before.table = lower table
      · have chosen : (before.table == lower table) = true := by simpa using here
        simp only [chosen, ↓reduceIte] at present ⊢
        rw [if_pos here.symm] at present
        cases present
        intro name member
        obtain ⟨listed, inside, rfl⟩ := mem_map.mp member
        have has := rooted.indexes oldIndex (by rw [here, found]) listed inside
        have spelled := (filed.indexes oldIndex).2.1.columns listed inside
        split
        · exact Table.has_renamed named (.inr (lower_lower new))
        · rename_i other
          refine Table.has_renamed named (.inl ⟨has, fun same => other ?_⟩)
          rw [beq_iff_eq, <- spelled, same]
      · have other : (before.table == lower table) = false := by simpa using here
        simp only [other, Ne.symm here, Bool.false_eq_true, ↓reduceIte] at present ⊢
        exact rooted.indexes oldIndex present
  rcases @CatalogMethod.renameColumn_cases (texts.rewriteColumnReference · old new) catalog
      table old new with
    ⟨error, failed⟩ | ⟨target, ordinal, column, found, named, ⟨-, done⟩ |
      ⟨constraints, checks, outcome, declared, ⟨-, done⟩ | ⟨⟨check, listed, error, why⟩, -⟩⟩⟩
  · rw [failed]
    exact rooted
  · rw [done]
    exact moved found named
  · rw [done]
    exact moved found named
  · obtain ⟨text, rewrote⟩ := rewritable constraints declared check listed
    simp only [rewrote] at why
    cases why

theorem Rooted.createIndex {index : Index} {table : Table}
    (onTable : catalog.tables[index.table]? = some table)
    (has : ∀ column ∈ index.columns, table.Has column)
    (created : catalog.createIndex index = .ok next) : Rooted next := by
  obtain ⟨rfl, -⟩ := Catalog.createIndex_eq_ok created
  refine ⟨rooted.primaryKey, ?_⟩
  intro key other stored found present
  rw [NameMap.getElem?_insert] at found
  split at found
  · cases found
    rw [show _ = some table from onTable] at present
    cases present
    exact has
  · exact rooted.indexes found present

theorem Rooted.dropIndex {index : Index} (dropped : catalog.dropIndex name = .ok (index, next)) :
    Rooted next := by
  unfold Catalog.dropIndex at dropped
  split at dropped
  · cases dropped
    refine ⟨rooted.primaryKey, ?_⟩
    intro key other stored found present
    rw [NameMap.getElem?_erase] at found
    split at found
    · cases found
    · exact rooted.indexes found present
  · cases dropped

theorem Rooted.settle {result : Except Error Catalog}
    (kept : ∀ next, result = .ok next -> Rooted next) : Rooted (settle result catalog).2 := by
  cases result with
  | error error => exact rooted
  | ok next => exact kept next rfl

end

end Steps

theorem Rooted.perform {texts : CheckTexts} {call : Call} (rooted : Rooted catalog)
    (filed : Filed catalog) (issued : Issued catalog call) (careful : Careful texts catalog call) :
    Rooted (call.perform texts catalog).2 := by
  cases call with
  | createTableWith table constraints =>
    rw [Call.perform, CatalogMethod.createTableWith_apply]
    refine rooted.settle fun next created => ?_
    cases issued with
    | createTable planned kept =>
      exact rooted.createTableWith filed (planCreateTable_planned planned) created
    | createTableAs planned =>
      exact rooted.createTableWith filed (planCreateTableAsSelect_planned planned).1 created
  | createTempTable table constraints =>
    rw [Call.perform, CatalogMethod.createTempTable_apply]
    refine rooted.settle fun next created => ?_
    obtain ⟨-, rfl⟩ := Catalog.createTempTable_eq_ok created
    exact ⟨rooted.primaryKey, rooted.indexes⟩
  | dropTable name =>
    rw [Call.perform, CatalogMethod.dropTable_apply]
    refine rooted.settle fun next dropped => ?_
    obtain ⟨⟨table, indexes, after⟩, removed, rfl⟩ := map_eq_ok dropped
    exact rooted.dropTable removed
  | renameTable source target =>
    rw [Call.perform, CatalogMethod.renameTable_apply]
    exact rooted.settle fun next renamed => rooted.renameTable filed renamed
  | addColumn table column =>
    rw [Call.perform, CatalogMethod.addColumn_apply]
    exact rooted.settle fun next added => rooted.addColumn added
  | renameColumn table old new => exact rooted.renameColumn filed careful
  | dropColumn table column =>
    rw [Call.perform, CatalogMethod.dropColumn_apply]
    refine rooted.settle fun next dropped => ?_
    obtain ⟨⟨ordinal, after⟩, removed, rfl⟩ := map_eq_ok dropped
    cases issued with
    | dropColumn found kept rowid =>
      obtain ⟨unshadowed, present, same⟩ := filed.durable found kept
      rw [<- same] at unshadowed present
      exact rooted.dropColumn filed unshadowed present rowid removed
  | createIndex index =>
    rw [Call.perform, CatalogMethod.createIndex_apply]
    refine rooted.settle fun next created => ?_
    obtain ⟨-, -, table, onTable, has⟩ := filed.issuedIndex issued
    exact rooted.createIndex onTable has created
  | dropIndex name =>
    rw [Call.perform, CatalogMethod.dropIndex_apply]
    refine rooted.settle fun next dropped => ?_
    obtain ⟨⟨index, after⟩, removed, rfl⟩ := map_eq_ok dropped
    exact rooted.dropIndex removed
  | createUniqueConstraint table constraint =>
    rw [Call.perform, CatalogMethod.createUniqueConstraint_apply]
    refine rooted.settle fun next created => ?_
    cases issued with
    | createUniqueConstraint found kept =>
      obtain ⟨_, -, -, -, -, rfl⟩ := Catalog.createUniqueConstraint_eq_ok created
      exact ⟨rooted.primaryKey, rooted.indexes⟩
  | dropUniqueConstraint name =>
    change Rooted (catalog.dropUniqueConstraint name)
    unfold Catalog.dropUniqueConstraint
    split
    · exact rooted
    · exact ⟨rooted.primaryKey, rooted.indexes⟩

/-! ## One call -/

/-- What the catalog keeps of the durable table of one name: its definition, its constraints
and its indexes. -/
structure KeepsDurable (before after : Catalog) (key : String) : Prop where
  table : ∀ {table : Table}, before.tables[key]? = some table -> after.tables[key]? = some table
  constraints : (before.tables[key]?).isSome → after.constraintsOf[key]? = before.constraintsOf[key]?
  indexes : ∀ {name : String} {index : Index}, before.indexes[name]? = some index ->
    index.table = key -> after.indexes[name]? = some index

theorem KeepsDurable.refl (catalog : Catalog) (key : String) : KeepsDurable catalog catalog key :=
  ⟨id, fun _ => rfl, fun found _ => found⟩

/-- A call that fails changes nothing, and a call on a name a temporary table shadows leaves the
durable table alone. -/
structure Call.Contained (texts : CheckTexts) (catalog : Catalog) (call : Call) : Prop where
  failing : ∀ error, (call.perform texts catalog).1 = .error error ->
    (call.perform texts catalog).2 = catalog
  shadowed : ∀ name ∈ call.tableNames, (catalog.tempTables[lower name]?).isSome ->
    KeepsDurable catalog (call.perform texts catalog).2 (lower name)

variable {result : Except Error Catalog}

theorem settle_failing {error : Error} (failed : (settle result catalog).1 = .error error) :
    (settle result catalog).2 = catalog := by
  cases result with
  | error error => rfl
  | ok next => cases failed

theorem KeepsDurable.settle {key : String}
    (kept : ∀ next, result = .ok next -> KeepsDurable catalog next key) :
    KeepsDurable catalog (settle result catalog).2 key := by
  cases result with
  | error error => exact .refl catalog key
  | ok next => exact kept next rfl

section Contained

variable {texts : CheckTexts} {catalog : Catalog}

theorem Filed.unshadowed (filed : Filed catalog) {name : String} {before : Table}
    (found : catalog.table name = some before) (kept : before.temporary = false) :
    ¬(catalog.tempTables[lower before.name]?).isSome := by
  obtain ⟨unshadowed, -, same⟩ := filed.durable found kept
  rw [same, unshadowed]
  exact nofun

theorem perform_failing {call : Call} (careful : Careful texts catalog call) (error : Error)
    (failed : (call.perform texts catalog).1 = .error error) :
    (call.perform texts catalog).2 = catalog := by
  cases call with
  | createTableWith table constraints =>
    rw [Call.perform, CatalogMethod.createTableWith_apply] at failed ⊢
    exact settle_failing failed
  | createTempTable table constraints =>
    rw [Call.perform, CatalogMethod.createTempTable_apply] at failed ⊢
    exact settle_failing failed
  | dropTable name =>
    rw [Call.perform, CatalogMethod.dropTable_apply] at failed ⊢
    exact settle_failing failed
  | renameTable source target =>
    rw [Call.perform, CatalogMethod.renameTable_apply] at failed ⊢
    exact settle_failing failed
  | addColumn table column =>
    rw [Call.perform, CatalogMethod.addColumn_apply] at failed ⊢
    exact settle_failing failed
  | renameColumn table old new =>
    rw [Call.perform] at failed ⊢
    rcases @CatalogMethod.renameColumn_cases (texts.rewriteColumnReference · old new) catalog
        table old new with
      ⟨other, stopped⟩ | ⟨target, ordinal, column, found, named, ⟨-, done⟩ |
        ⟨constraints, checks, outcome, declared, ⟨rfl, done⟩ | ⟨⟨check, listed, other, why⟩, -⟩⟩⟩
    · rw [stopped]
    · rw [done] at failed
      cases failed
    · rw [done] at failed
      cases failed
    · obtain ⟨text, rewrote⟩ := careful.2 constraints declared check listed
      simp only [rewrote] at why
      cases why
  | dropColumn table column =>
    rw [Call.perform, CatalogMethod.dropColumn_apply] at failed ⊢
    exact settle_failing failed
  | createIndex index =>
    rw [Call.perform, CatalogMethod.createIndex_apply] at failed ⊢
    exact settle_failing failed
  | dropIndex name =>
    rw [Call.perform, CatalogMethod.dropIndex_apply] at failed ⊢
    exact settle_failing failed
  | createUniqueConstraint table constraint =>
    rw [Call.perform, CatalogMethod.createUniqueConstraint_apply] at failed ⊢
    exact settle_failing failed
  | dropUniqueConstraint name => cases failed

theorem perform_shadowed (filed : Filed catalog) {call : Call} (issued : Issued catalog call)
    {name : String} (about : name ∈ call.tableNames)
    (shadowed : (catalog.tempTables[lower name]?).isSome) :
    KeepsDurable catalog (call.perform texts catalog).2 (lower name) := by
  cases issued with
  | createTable | createTableAs =>
    rw [mem_singleton.mp about, Call.perform, CatalogMethod.createTableWith_apply]
    refine .settle fun next created => ?_
    obtain ⟨free, rfl⟩ := Catalog.createTableWith_eq_ok created
    refine ⟨?_, ?_, fun found _ => found⟩
    · intro table present
      rw [free] at present
      cases present
    · intro present
      rw [free] at present
      cases present
  | createTempTable | createTempTableAs =>
    rw [Call.perform, CatalogMethod.createTempTable_apply]
    refine .settle fun next created => ?_
    obtain ⟨-, rfl⟩ := Catalog.createTempTable_eq_ok created
    exact ⟨id, fun _ => rfl, fun found _ => found⟩
  | dropTable found =>
    rw [mem_singleton.mp about] at shadowed ⊢
    rw [Call.perform, CatalogMethod.dropTable_apply]
    refine .settle fun next dropped => ?_
    obtain ⟨⟨table, indexes, after⟩, removed, rfl⟩ := map_eq_ok dropped
    rcases Catalog.dropTable_eq_ok removed with ⟨-, rfl⟩ | ⟨absent, -, -⟩
    · exact ⟨id, fun _ => rfl, fun found _ => found⟩
    · rw [absent] at shadowed
      cases shadowed
  | renameTable found kept rowid free =>
    rcases mem_cons.mp about with rfl | about
    · exact absurd shadowed (filed.unshadowed found kept)
    · rw [mem_singleton.mp about] at shadowed
      rw [Catalog.table, Option.orElse_eq_none] at free
      rw [free.1] at shadowed
      cases shadowed
  | addColumn found kept | renameColumn found kept | dropColumn found kept =>
    rw [mem_singleton.mp about] at shadowed
    exact absurd shadowed (filed.unshadowed found kept)
  | implicitIndex | uniqueIndex | createIndex =>
    rw [Call.perform, CatalogMethod.createIndex_apply]
    refine .settle fun next created => ?_
    obtain ⟨rfl, free, -⟩ := Catalog.createIndex_eq_ok created
    refine ⟨id, fun _ => rfl, ?_⟩
    intro key other stored _
    rw [NameMap.getElem?_insert, if_neg, stored]
    rintro rfl
    rw [(Catalog.indexNameTaken_eq_false free).1] at stored
    cases stored
  | createUniqueConstraint found kept =>
    rw [mem_singleton.mp about] at shadowed
    obtain ⟨unshadowed, -, -⟩ := filed.durable found kept
    rw [unshadowed] at shadowed
    cases shadowed
  | dropIndex | dropUniqueConstraint => cases about

end Contained

/-- A `CHECK` tokenizer for tables that declare none. -/
def plainTexts : CheckTexts := ⟨fun text _ _ => .ok text, fun _ _ => .ok false⟩

/-- `CREATE TABLE t (a INTEGER PRIMARY KEY)`, with a row id or without. -/
def oneColumn (withoutRowid : Bool) : CreateTable :=
  { name := "t", columns := [⟨"a", .integer, [.primaryKey]⟩], constraints := [], strict := false
    withoutRowid, temporary := false }

def rowidTable : Table :=
  { name := "t", columns := [{ Column.new "a" .integer with primaryKey := true }], strict := false
    withoutRowid := false, primaryKey := [], temporary := false }

def keyedTable : Table :=
  { name := "t", columns := [{ Column.new "a" .integer with notNull := true }], strict := false
    withoutRowid := true, primaryKey := ["a"], temporary := false }

/-- The catalog after the table is created and its column renamed. -/
def renamedCatalog (table : Table) : Catalog :=
  ((Call.renameColumn "t" "a" "b").perform plainTexts
    ((Call.createTableWith table .empty).perform plainTexts .empty).2).2

theorem renamedCatalog_runs {table : Table} {create : CreateTable}
    {allowed : Catalog -> Call -> Prop} (planned : planCreateTable create = .ok (table, .empty))
    (kept : table.temporary = false)
    (found : ((Call.createTableWith table .empty).perform plainTexts .empty).2.table "t" = some table)
    (named : table.name = "t") (first : allowed .empty (.createTableWith table .empty))
    (second : allowed ((Call.createTableWith table .empty).perform plainTexts .empty).2
      (.renameColumn "t" "a" "b")) :
    (catalogSystem plainTexts allowed).Runs
      [.createTableWith table .empty, .renameColumn "t" "a" "b"] (renamedCatalog table) := by
  have created : (catalogSystem plainTexts allowed).Step .empty (.createTableWith table .empty)
      ((Call.createTableWith table .empty).perform plainTexts .empty).2 :=
    ⟨.createTable planned kept, first, rfl⟩
  have issued : Issued ((Call.createTableWith table .empty).perform plainTexts .empty).2
      (.renameColumn table.name "a" "b") := .renameColumn found kept
  rw [named] at issued
  exact ⟨.empty, rfl, .step (.step .refl created) ⟨issued, second, rfl⟩⟩

theorem rowidTable_careful : Careful plainTexts
    ((Call.createTableWith rowidTable .empty).perform plainTexts .empty).2
    (.renameColumn "t" "a" "b") := by
  constructor
  · intro target found name member
    rw [show ((Call.createTableWith rowidTable .empty).perform plainTexts .empty).2.tables[
      lower "t"]? = some rowidTable by decide +kernel] at found
    cases found
    exact absurd member (not_mem_nil)
  · intro constraints declared
    cases declared

end InlaySql.Sql
