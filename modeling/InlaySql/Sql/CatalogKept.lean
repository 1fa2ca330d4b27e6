import InlaySql.Sql.CatalogSpec

/-!
# What every call keeps of a catalog

`Filed` holds after every call the engine makes, failed or not: each entry lies under its own
lowercased name, constraints name columns their table has, indexes are on tables that exist,
and no two declarations share a name.
-/

namespace InlaySql.Sql

open List Option Lib
open Stateful

/-! ## What every call keeps -/

/-- An index declaration as the engine spells it. -/
structure Index.Spelled (index : Index) : Prop where
  table : lower index.table = index.table
  columns : ∀ column ∈ index.columns, lower column = column
  some : index.columns ≠ []
  collated : index.collations.length = index.columns.length

/-- A durable table as it is filed under its key. -/
structure Table.Durable (key : String) (table : Table) : Prop where
  key : key = lower table.name
  kept : table.temporary = false
  rowid : table.withoutRowid = false -> table.primaryKey = []

/-- What holds of the catalog after every call. -/
structure Filed (catalog : Catalog) : Prop where
  tables : ∀ {key : String} {table : Table}, catalog.tables[key]? = some table -> table.Durable key
  tempTables : ∀ {key : String} {table : Table}, catalog.tempTables[key]? = some table ->
    key = lower table.name ∧ table.temporary = true ∧ ∀ name ∈ table.primaryKey, table.Has name
  constraints : ∀ {key : String} {constraints : TableConstraints},
    catalog.constraintsOf[key]? = some constraints ->
    ∃ table, catalog.tables[key]? = some table ∧ ∀ name ∈ constraints.named, table.Has name
  tempConstraints : ∀ {key : String} {constraints : TableConstraints},
    catalog.tempConstraints[key]? = some constraints ->
    constraints.unique = [] ∧
      ∃ table, catalog.tempTables[key]? = some table ∧ ∀ name ∈ constraints.named, table.Has name
  indexes : ∀ {key : String} {index : Index}, catalog.indexes[key]? = some index ->
    key = lower index.name ∧ index.Spelled ∧ ∃ table, catalog.tables[index.table]? = some table
  /-- The named groups of one table have different names. -/
  groups : ∀ {key : String} {constraints : TableConstraints},
    catalog.constraintsOf[key]? = some constraints -> constraints.names.Nodup
  /-- A group's name belongs to one table. -/
  apart : ∀ {key other : String} {constraints others : TableConstraints} {name : String},
    catalog.constraintsOf[key]? = some constraints -> catalog.constraintsOf[other]? = some others ->
      name ∈ constraints.names -> name ∈ others.names -> key = other
  /-- An index under the name of a group is the index that enforces it. -/
  shared : ∀ {key : String} {constraints : TableConstraints} {name : String} {index : Index},
    catalog.constraintsOf[key]? = some constraints -> name ∈ constraints.names ->
      catalog.indexes[name]? = some index → index.unique = true ∧ index.kind = .btree ∧ index.table = key

theorem Filed.empty : Filed .empty := by
  constructor <;> simp [Catalog.empty]

/-! ## Creating and dropping -/

section Steps

variable {catalog next : Catalog}

theorem Filed.named (filed : Filed catalog) {key : String} {constraints : TableConstraints}
    {table : Table} (stored : catalog.constraintsOf[key]? = some constraints)
    (present : catalog.tables[key]? = some table) : ∀ name ∈ constraints.named, table.Has name := by
  obtain ⟨other, otherPresent, named⟩ := filed.constraints stored
  rw [present] at otherPresent
  cases otherPresent
  exact named

variable {table : Table} {constraints : TableConstraints} {name : String} {indexes : List Index}
  {column : String} {checkMentions : String -> String -> Except Error Bool} {ordinal : Nat}
  {old new : String} {checks : List String}

theorem Catalog.createTableWith_eq_ok
    (created : catalog.createTableWith table constraints = .ok next) :
    catalog.tables[lower table.name]? = none ∧
      next = { catalog with
        constraintsOf :=
          if constraints.isEmpty then catalog.constraintsOf
          else catalog.constraintsOf.insert (lower table.name) constraints
        tables := catalog.tables.insert (lower table.name) table } := by
  unfold Catalog.createTableWith at created
  obtain ⟨free, created⟩ := guard_eq_ok created
  obtain ⟨_, -, created⟩ := Lib.bind_eq_ok created
  cases created
  exact ⟨not_isSome_iff_eq_none.mp free, rfl⟩

theorem Filed.createTableWith (filed : Filed catalog) (planned : Planned table constraints)
    (kept : table.temporary = false)
    (created : catalog.createTableWith table constraints = .ok next) : Filed next := by
  obtain ⟨free, rfl⟩ := Catalog.createTableWith_eq_ok created
  have fresh : catalog.constraintsOf[lower table.name]? = none := by
    cases stored : catalog.constraintsOf[lower table.name]? with
    | none => rfl
    | some old =>
      obtain ⟨_, found, -⟩ := filed.constraints stored
      rw [free] at found
      cases found
  -- an entry of the new map is the new table's or an old one elsewhere
  have entry : ∀ {key : String} {stored : TableConstraints},
      (if constraints.isEmpty then catalog.constraintsOf
        else catalog.constraintsOf.insert (lower table.name) constraints)[key]? = some stored ->
      (key = lower table.name ∧ stored = constraints) ∨
        (key ≠ lower table.name ∧ catalog.constraintsOf[key]? = some stored) := by
    intro key stored found
    by_cases here : key = lower table.name
    · subst here
      split at found
      · rw [fresh] at found
        cases found
      · rw [NameMap.getElem?_insert, if_pos rfl] at found
        cases found
        exact .inl ⟨rfl, rfl⟩
    · refine .inr ⟨here, ?_⟩
      split at found
      · exact found
      · rwa [NameMap.getElem?_insert, if_neg (Ne.symm here)] at found
  have elsewhere : ∀ {key : String} {stored : Table}, catalog.tables[key]? = some stored ->
      (catalog.tables.insert (lower table.name) table)[key]? = some stored := by
    intro key stored found
    rw [NameMap.getElem?_insert, if_neg, found]
    rintro rfl
    rw [free] at found
    cases found
  constructor
  case tables =>
    intro key stored found
    rw [NameMap.getElem?_insert] at found
    split at found
    · rename_i same
      cases found
      exact ⟨same.symm, kept, planned.rowid⟩
    · exact filed.tables found
  case tempTables => exact filed.tempTables
  case tempConstraints => exact filed.tempConstraints
  case constraints =>
    intro key stored found
    rcases entry found with ⟨rfl, rfl⟩ | ⟨-, old⟩
    · exact ⟨table, by simp, planned.named⟩
    · obtain ⟨before, present, named⟩ := filed.constraints old
      exact ⟨before, elsewhere present, named⟩
  case indexes =>
    intro key index found
    obtain ⟨named, spelled, before, present⟩ := filed.indexes found
    exact ⟨named, spelled, before, elsewhere present⟩
  case groups =>
    intro key stored found
    rcases entry found with ⟨rfl, rfl⟩ | ⟨-, old⟩
    · simp [planned.unnamed]
    · exact filed.groups old
  case apart =>
    intro key other stored others name found otherFound member otherMember
    rcases entry found with ⟨rfl, rfl⟩ | ⟨-, old⟩
    · simp [planned.unnamed] at member
    · rcases entry otherFound with ⟨rfl, rfl⟩ | ⟨-, otherOld⟩
      · simp [planned.unnamed] at otherMember
      · exact filed.apart old otherOld member otherMember
  case shared =>
    intro key stored name index found member enforced
    rcases entry found with ⟨rfl, rfl⟩ | ⟨-, old⟩
    · simp [planned.unnamed] at member
    · exact filed.shared old member enforced

theorem Catalog.createTempTable_eq_ok
    (created : catalog.createTempTable table constraints = .ok next) :
    catalog.tempTables[lower table.name]? = none ∧
      next = { catalog with
        tempConstraints :=
          if constraints.isEmpty then catalog.tempConstraints
          else catalog.tempConstraints.insert (lower table.name) constraints
        tempTables := catalog.tempTables.insert (lower table.name) table } := by
  unfold Catalog.createTempTable at created
  obtain ⟨free, created⟩ := guard_eq_ok created
  obtain ⟨_, -, created⟩ := Lib.bind_eq_ok created
  cases created
  exact ⟨not_isSome_iff_eq_none.mp free, rfl⟩

theorem Filed.createTempTable (filed : Filed catalog) (planned : Planned table constraints)
    (temporary : table.temporary = true)
    (created : catalog.createTempTable table constraints = .ok next) : Filed next := by
  obtain ⟨free, rfl⟩ := Catalog.createTempTable_eq_ok created
  refine { filed with tempTables := ?_, tempConstraints := ?_ }
  · intro key stored found
    rw [NameMap.getElem?_insert] at found
    split at found
    · rename_i same
      cases found
      exact ⟨same.symm, temporary, planned.key⟩
    · exact filed.tempTables found
  · intro key stored found
    by_cases here : lower table.name = key
    · subst here
      split at found
      · obtain ⟨-, _, present, -⟩ := filed.tempConstraints found
        rw [free] at present
        cases present
      · rw [NameMap.getElem?_insert, if_pos rfl] at found
        cases found
        exact ⟨planned.temporary temporary, table, by simp, planned.named⟩
    · have old : catalog.tempConstraints[key]? = some stored := by
        split at found
        · exact found
        · rwa [NameMap.getElem?_insert, if_neg here] at found
      obtain ⟨none, before, present, named⟩ := filed.tempConstraints old
      exact ⟨none, before, by rw [NameMap.getElem?_insert, if_neg here, present], named⟩

/-- What `drop_table` removes: the temporary table of that name, or the durable one with its
constraints and indexes. -/
theorem Catalog.dropTable_eq_ok (dropped : catalog.dropTable name = .ok (table, indexes, next)) :
    (catalog.tempTables[lower name]? = some table ∧ next = { catalog with
        tempTables := catalog.tempTables.erase (lower name)
        tempConstraints := catalog.tempConstraints.erase (lower name) }) ∨
      (catalog.tempTables[lower name]? = none ∧ catalog.tables[lower name]? = some table ∧
        next = { catalog with
          tables := catalog.tables.erase (lower name)
          constraintsOf := catalog.constraintsOf.erase (lower name)
          indexes := catalog.indexes.filter fun _ index => !sameName index.table (lower name) }) := by
  unfold Catalog.dropTable at dropped
  simp only at dropped
  split at dropped
  · rename_i temporary found
    cases dropped
    exact .inl ⟨found, rfl⟩
  · rename_i absent
    split at dropped
    · cases dropped
    · rename_i durable found
      cases dropped
      exact .inr ⟨absent, found, rfl⟩

theorem Filed.dropTable (filed : Filed catalog)
    (dropped : catalog.dropTable name = .ok (table, indexes, next)) : Filed next := by
  have kept : ∀ {α : Type} {map : NameMap α} {key : String} {value : α},
      (map.erase (lower name))[key]? = some value -> lower name ≠ key ∧ map[key]? = some value := by
    intro α map key value found
    rw [NameMap.getElem?_erase] at found
    split at found
    · cases found
    · rename_i apart
      exact ⟨apart, found⟩
  rcases Catalog.dropTable_eq_ok dropped with ⟨-, rfl⟩ | ⟨-, -, rfl⟩
  · refine { filed with
      tempTables := fun found => filed.tempTables (kept found).2, tempConstraints := ?_ }
    intro key stored found
    obtain ⟨apart, old⟩ := kept found
    obtain ⟨none, before, present, named⟩ := filed.tempConstraints old
    exact ⟨none, before, by rw [NameMap.getElem?_erase, if_neg apart, present], named⟩
  · have indexed : ∀ {key : String} {index : Index},
        (catalog.indexes.filter fun _ index => !sameName index.table (lower name))[key]? =
          some index ->
        catalog.indexes[key]? = some index ∧ lower index.table ≠ lower name := by
      intro key index found
      rw [Std.ExtTreeMap.getElem?_filter', filter_eq_some_iff] at found
      obtain ⟨old, other⟩ := found
      exact ⟨old, by simpa [sameName] using other⟩
    constructor
    case tables => exact fun found => filed.tables (kept found).2
    case tempTables => exact filed.tempTables
    case tempConstraints => exact filed.tempConstraints
    case constraints =>
      intro key stored found
      obtain ⟨apart, old⟩ := kept found
      obtain ⟨before, present, named⟩ := filed.constraints old
      exact ⟨before, by rw [NameMap.getElem?_erase, if_neg apart, present], named⟩
    case indexes =>
      intro key index found
      obtain ⟨old, other⟩ := indexed found
      obtain ⟨named, spelled, before, present⟩ := filed.indexes old
      refine ⟨named, spelled, before, ?_⟩
      rw [NameMap.getElem?_erase, if_neg, present]
      intro same
      exact other (by rw [<- same, lower_lower])
    case groups => exact fun found => filed.groups (kept found).2
    case apart =>
      exact fun found otherFound => filed.apart (kept found).2 (kept otherFound).2
    case shared =>
      exact fun found member enforced => filed.shared (kept found).2 member (indexed enforced).1

/-! ## Changing what is there -/

section

variable (filed : Filed catalog)

include filed

theorem Filed.revise (temporary : next.tempTables = catalog.tempTables ∧ next.tempConstraints =
      catalog.tempConstraints)
    (tables : ∀ {key : String} {table : Table}, next.tables[key]? = some table -> ∃ before,
      catalog.tables[key]? = some before ∧ table.name = before.name ∧ table.temporary =
      before.temporary ∧ table.withoutRowid = before.withoutRowid ∧ table.primaryKey =
      before.primaryKey)
    (still : ∀ {key : String} {table : Table}, catalog.tables[key]? = some table -> ∃ after,
      next.tables[key]? = some after)
    (constraints : ∀ {key : String} {constraints : TableConstraints}, next.constraintsOf[key]? =
      some constraints -> ∃ before, catalog.constraintsOf[key]? = some before ∧
      constraints.names.Sublist before.names ∧ ∀ {table : Table}, next.tables[key]? = some table → ∀
      name ∈ constraints.named, table.Has name)
    (indexes : ∀ {key : String} {index : Index}, next.indexes[key]? = some index -> ∃ before,
      catalog.indexes[key]? = some before ∧ index.name = before.name ∧ index.table = before.table ∧
      index.unique = before.unique ∧ index.kind = before.kind ∧ (before.Spelled -> index.Spelled)) :
    Filed next := by
  constructor
  case tables =>
    intro key table found
    obtain ⟨before, old, named, kept, rowid, primary⟩ := tables found
    obtain ⟨under, durable, keyed⟩ := filed.tables old
    exact ⟨by rw [named, under], by rw [kept, durable], by rw [rowid, primary]; exact keyed⟩
  case tempTables =>
    rw [temporary.1]
    exact filed.tempTables
  case tempConstraints =>
    rw [temporary.1, temporary.2]
    exact filed.tempConstraints
  case constraints =>
    intro key stored found
    obtain ⟨before, old, -, named⟩ := constraints found
    obtain ⟨table, present, -⟩ := filed.constraints old
    obtain ⟨after, present⟩ := still present
    exact ⟨after, present, named present⟩
  case indexes =>
    intro key index found
    obtain ⟨before, old, named, placed, -, -, spelled⟩ := indexes found
    obtain ⟨under, well, table, present⟩ := filed.indexes old
    obtain ⟨after, present⟩ := still present
    exact ⟨by rw [named, under], spelled well, after, by rw [placed, present]⟩
  case groups =>
    intro key stored found
    obtain ⟨before, old, fewer, -⟩ := constraints found
    exact (filed.groups old).sublist fewer
  case apart =>
    intro key other stored others name found otherFound member otherMember
    obtain ⟨before, old, fewer, -⟩ := constraints found
    obtain ⟨otherBefore, otherOld, otherFewer, -⟩ := constraints otherFound
    exact filed.apart old otherOld (fewer.subset member) (otherFewer.subset otherMember)
  case shared =>
    intro key stored name index found member enforced
    obtain ⟨before, old, fewer, -⟩ := constraints found
    obtain ⟨indexBefore, indexOld, -, placed, unique, kind, -⟩ := indexes enforced
    rw [placed, unique, kind]
    exact filed.shared old (fewer.subset member) indexOld

theorem Filed.durable (found : catalog.table name = some table) (kept : table.temporary = false) :
    catalog.tempTables[lower name]? = none ∧ catalog.tables[lower name]? = some table ∧
      lower table.name = lower name := by
  unfold Catalog.table at found
  cases shadow : catalog.tempTables[lower name]? with
  | some temporary =>
    rw [shadow] at found
    cases found
    obtain ⟨-, isTemporary, -⟩ := filed.tempTables shadow
    rw [kept] at isTemporary
    cases isTemporary
  | none =>
    rw [shadow] at found
    exact ⟨rfl, found, (filed.tables found).key.symm⟩

/-- One durable table changed in its columns only, to a table with every column a constraint
names. -/
theorem Filed.setTable {before after : Table} (found : catalog.tables[lower name]? = some before)
    (same : after = { before with columns := after.columns })
    (named : ∀ {constraints : TableConstraints}, catalog.constraintsOf[lower name]? = some
      constraints -> ∀ column ∈ constraints.named, after.Has column) :
    Filed (catalog.setTable name after) := by
  refine filed.revise ⟨rfl, rfl⟩ ?_ ?_ ?_ fun stored => ⟨_, stored, rfl, rfl, rfl, rfl, id⟩
  · intro key table stored
    rw [Catalog.setTable, NameMap.getElem?_insert] at stored
    split at stored
    · rename_i here
      cases stored
      subst here
      rw [same]
      exact ⟨before, found, rfl, rfl, rfl, rfl⟩
    · exact ⟨table, stored, rfl, rfl, rfl, rfl⟩
  · intro key table stored
    rw [Catalog.setTable, NameMap.getElem?_insert]
    split
    · exact ⟨after, rfl⟩
    · exact ⟨table, stored⟩
  · intro key constraints stored
    refine ⟨constraints, stored, List.Sublist.refl _, ?_⟩
    intro table present
    rw [Catalog.setTable, NameMap.getElem?_insert] at present
    split at present
    · rename_i here
      cases present
      subst here
      exact named stored
    · exact filed.named stored present

theorem Filed.addColumn {column : Column} (added : catalog.addColumn name column = .ok next) :
    Filed next := by
  unfold Catalog.addColumn Catalog.requireTableMut at added
  obtain ⟨target, found, added⟩ := Lib.bind_eq_ok added
  obtain ⟨-, added⟩ := guard_eq_ok added
  cases added
  split at found
  · rename_i before present
    cases found
    refine filed.setTable present rfl ?_
    intro constraints stored column member
    exact (filed.named stored present column member).mono fun _ inside =>
      mem_append_left _ inside
  · cases found

end

theorem Catalog.droppableColumn_eq_ok {table : String}
    (droppable : catalog.droppableColumn table column checkMentions = .ok ordinal) :
    ∃ target definition, catalog.table table = some target ∧
      target.columns[ordinal]? = some definition ∧
      (∀ {constraints : TableConstraints}, catalog.constraintsOf[lower table]? = some constraints ->
        ∀ name ∈ constraints.named, lower name ≠ lower definition.name) ∧
      ∀ {key : String} {index : Index}, catalog.indexes[key]? = some index ->
        index.table = lower table -> lower definition.name ∉ index.columns := by
  unfold Catalog.droppableColumn at droppable
  obtain ⟨target, found, droppable⟩ := Lib.bind_eq_ok droppable
  obtain ⟨⟨place, definition⟩, named, droppable⟩ := Lib.bind_eq_ok droppable
  obtain ⟨-, droppable⟩ := guard_eq_ok droppable
  obtain ⟨-, droppable⟩ := guard_eq_ok droppable
  have present : catalog.table table = some target := by
    unfold Catalog.requireTable at found
    split at found
    · rename_i present
      cases found
      exact present
    · cases found
  obtain ⟨stored, spelled⟩ := Table.requireColumn_eq_ok named
  -- what both branches of the constraint check go on to
  have unindexed : ∀ {rest : Unit -> Except Error Nat}, (rest = fun _ => pure place) ->
      (if (catalog.indexes.toList.any fun entry => entry.2.table == lower table &&
          entry.2.columns.contains (lower definition.name)) = true then
        throw (.catalog s!"cannot drop column `{definition.name}`: it is indexed") >>= rest
      else rest ()) = Except.ok ordinal ->
      place = ordinal ∧ ∀ {key : String} {index : Index}, catalog.indexes[key]? = some index ->
        index.table = lower table -> lower definition.name ∉ index.columns := by
    rintro rest rfl passed
    obtain ⟨clear, passed⟩ := guard_eq_ok passed
    refine ⟨Except.ok.inj passed, ?_⟩
    intro key index found placed member
    apply clear
    rw [List.any_eq_true]
    exact ⟨(key, index), Std.ExtTreeMap.mem_toList_iff_getElem?_eq_some.mpr found,
      by simp [placed, member]⟩
  cases declared : catalog.constraintsOf[lower table]? with
  | none =>
    rw [declared] at droppable
    obtain ⟨rfl, clear⟩ := unindexed rfl droppable
    exact ⟨target, definition, present, stored, (by rintro _ ⟨⟩), clear⟩
  | some constraints =>
    rw [declared] at droppable
    obtain ⟨unnamed, droppable⟩ := guard_eq_ok droppable
    obtain ⟨_, -, droppable⟩ := Lib.bind_eq_ok droppable
    obtain ⟨rfl, clear⟩ := unindexed rfl droppable
    refine ⟨target, definition, present, stored, ?_, clear⟩
    rintro _ ⟨⟩ name member same
    apply unnamed
    rw [TableConstraints.mentions, List.any_eq_true]
    exact ⟨name, member, sameName_iff.mpr same⟩

theorem Catalog.dropColumn_eq_ok
    (dropped : catalog.dropColumn name column checkMentions = .ok (ordinal, next)) :
    ∃ target, catalog.droppableColumn name column checkMentions = .ok ordinal ∧
      catalog.tables[lower name]? = some target ∧
      next = catalog.setTable name { target with columns := target.columns.eraseIdx ordinal } := by
  unfold Catalog.dropColumn Catalog.requireTableMut at dropped
  obtain ⟨place, droppable, dropped⟩ := Lib.bind_eq_ok dropped
  obtain ⟨target, found, dropped⟩ := Lib.bind_eq_ok dropped
  cases dropped
  split at found
  · rename_i before present
    cases found
    exact ⟨target, droppable, present, rfl⟩
  · cases found

section

variable (filed : Filed catalog)

include filed

theorem Filed.dropColumn (unshadowed : catalog.tempTables[lower name]? = none)
    (dropped : catalog.dropColumn name column checkMentions = .ok (ordinal, next)) :
    Filed next := by
  obtain ⟨target, droppable, present, rfl⟩ := Catalog.dropColumn_eq_ok dropped
  obtain ⟨visible, definition, found, place, unnamed, -⟩ := Catalog.droppableColumn_eq_ok droppable
  obtain rfl : target = visible := by
    rw [Catalog.table, unshadowed, present] at found
    exact Option.some.inj found
  refine filed.setTable present rfl ?_
  intro constraints stored column member
  exact Table.has_erased place (filed.named stored present column member)
    (unnamed stored column member)

theorem Filed.dropIndex {index : Index} (dropped : catalog.dropIndex name = .ok (index, next)) :
    Filed next := by
  unfold Catalog.dropIndex at dropped
  split at dropped
  · cases dropped
    refine filed.revise ⟨rfl, rfl⟩ (fun stored => ⟨_, stored, rfl, rfl, rfl, rfl⟩)
      (fun stored => ⟨_, stored⟩) ?_ ?_
    · intro key constraints stored
      exact ⟨constraints, stored, List.Sublist.refl _, fun present => filed.named stored present⟩
    · intro key other stored
      rw [NameMap.getElem?_erase] at stored
      split at stored
      · cases stored
      · exact ⟨other, stored, rfl, rfl, rfl, rfl, id⟩
  · cases dropped

theorem Filed.dropUniqueConstraint (name : String) : Filed (catalog.dropUniqueConstraint name) := by
  unfold Catalog.dropUniqueConstraint
  split
  · exact filed
  · refine filed.revise ⟨rfl, rfl⟩ (fun stored => ⟨_, stored, rfl, rfl, rfl, rfl⟩)
      (fun stored => ⟨_, stored⟩) ?_ (fun stored => ⟨_, stored, rfl, rfl, rfl, rfl, id⟩)
    intro key constraints stored
    rw [NameMap.getElem?_modify] at stored
    have narrowed : ∃ before, catalog.constraintsOf[key]? = some before ∧
        constraints.names.Sublist before.names ∧ constraints.named ⊆ before.named := by
      split at stored
      · obtain ⟨before, old, rfl⟩ := map_eq_some_iff.mp stored
        refine ⟨before, old, filter_sublist.filterMap _, ?_⟩
        intro column member
        simp only [TableConstraints.named, mem_append, mem_flatMap, mem_filter] at member ⊢
        exact member.imp_left fun ⟨group, ⟨inside, _⟩, names⟩ => ⟨group, inside, names⟩
      · exact ⟨constraints, stored, List.Sublist.refl _, fun _ => id⟩
    obtain ⟨before, old, fewer, named⟩ := narrowed
    refine ⟨before, old, fewer, ?_⟩
    exact fun present column member => filed.named old present column (named member)

end

theorem Catalog.renameTable_eq_ok {source target : String}
    (renamed : catalog.renameTable source target = .ok next) :
    ∃ table, catalog.tables[lower source]? = some table ∧
      (lower source ≠ lower target -> catalog.tables[lower target]? = none) ∧
      next = { catalog with
        tables := (catalog.tables.erase (lower source)).insert (lower target)
          { table with name := target }
        constraintsOf :=
          match catalog.constraintsOf[lower source]? with
          | some constraints =>
            (catalog.constraintsOf.erase (lower source)).insert (lower target) constraints
          | none => catalog.constraintsOf
        indexes := catalog.indexes.map fun _ index =>
          if index.table == lower source then { index with table := lower target } else index } := by
  unfold Catalog.renameTable at renamed
  cases found : catalog.tables[lower source]? with
  | none =>
    simp only [found] at renamed
    cases renamed
  | some table =>
    simp only [found] at renamed
    obtain ⟨free, renamed⟩ := guard_eq_ok renamed
    cases renamed
    refine ⟨table, rfl, fun apart => ?_, rfl⟩
    by_contra taken
    exact free (by simpa [apart, isSome_iff_ne_none] using taken)

theorem Filed.renameTable (filed : Filed catalog) {source target : String}
    (renamed : catalog.renameTable source target = .ok next) : Filed next := by
  obtain ⟨table, found, free, rfl⟩ := Catalog.renameTable_eq_ok renamed
  have tableAt : ∀ {key : String} {stored : Table},
      ((catalog.tables.erase (lower source)).insert (lower target)
        { table with name := target })[key]? = some stored ->
      (key = lower target ∧ stored = { table with name := target }) ∨
        catalog.tables[key]? = some stored := by
    intro key stored present
    rw [NameMap.getElem?_insert, NameMap.getElem?_erase] at present
    split at present
    · rename_i same
      cases present
      exact .inl ⟨same.symm, rfl⟩
    · split at present
      · cases present
      · exact .inr present
  have moved : ∀ {key : String} {stored : Table}, catalog.tables[key]? = some stored ->
      key ≠ lower source ->
      ∃ after, ((catalog.tables.erase (lower source)).insert (lower target)
        { table with name := target })[key]? = some after ∧ ∀ name, stored.Has name → after.Has name := by
    intro key stored present apart
    rw [NameMap.getElem?_insert, NameMap.getElem?_erase, if_neg (Ne.symm apart)]
    split
    · rename_i same
      subst same
      rw [free (Ne.symm apart)] at present
      cases present
    · exact ⟨stored, present, fun _ => id⟩
  have entry : ∀ {key : String} {stored : TableConstraints},
      (match catalog.constraintsOf[lower source]? with
        | some constraints =>
          (catalog.constraintsOf.erase (lower source)).insert (lower target) constraints
        | none => catalog.constraintsOf)[key]? = some stored ->
      (key = lower target ∧ catalog.constraintsOf[lower source]? = some stored) ∨
        (key ≠ lower target ∧ key ≠ lower source ∧ catalog.constraintsOf[key]? = some stored) := by
    intro key stored present
    cases declared : catalog.constraintsOf[lower source]? with
    | some constraints =>
      simp only [declared] at present
      rw [NameMap.getElem?_insert, NameMap.getElem?_erase] at present
      split at present
      · rename_i same
        exact .inl ⟨same.symm, present⟩
      · rename_i other
        split at present
        · cases present
        · rename_i apart
          exact .inr ⟨Ne.symm other, Ne.symm apart, present⟩
    | none =>
      simp only [declared] at present
      have apart : key ≠ lower source := by
        rintro rfl
        rw [declared] at present
        cases present
      refine .inr ⟨?_, apart, present⟩
      rintro rfl
      obtain ⟨_, absent, -⟩ := filed.constraints present
      rw [free (Ne.symm apart)] at absent
      cases absent
  have indexAt : ∀ {key : String} {index : Index}, (catalog.indexes.map fun _ index =>
        if index.table == lower source then { index with table := lower target } else index)[key]? =
          some index ->
      ∃ before, catalog.indexes[key]? = some before ∧
        index = if before.table == lower source then { before with table := lower target }
          else before := by
    intro key index present
    rw [Std.ExtTreeMap.getElem?_map, map_eq_some_iff] at present
    obtain ⟨before, old, same⟩ := present
    exact ⟨before, old, same.symm⟩
  constructor
  case tables =>
    intro key stored present
    rcases tableAt present with ⟨rfl, rfl⟩ | old
    · obtain ⟨-, kept, rowid⟩ := filed.tables found
      exact ⟨rfl, kept, rowid⟩
    · exact filed.tables old
  case tempTables => exact filed.tempTables
  case tempConstraints => exact filed.tempConstraints
  case constraints =>
    intro key stored present
    rcases entry present with ⟨rfl, old⟩ | ⟨-, apart, old⟩
    · obtain ⟨before, beforeFound, named⟩ := filed.constraints old
      rw [found] at beforeFound
      cases beforeFound
      exact ⟨{ table with name := target }, by rw [NameMap.getElem?_insert, if_pos rfl], named⟩
    · obtain ⟨before, beforeFound, named⟩ := filed.constraints old
      obtain ⟨after, afterFound, has⟩ := moved beforeFound apart
      exact ⟨after, afterFound, fun name member => has name (named name member)⟩
  case indexes =>
    intro key index present
    obtain ⟨before, old, rfl⟩ := indexAt present
    obtain ⟨under, spelled, onTable, onFound⟩ := filed.indexes old
    by_cases here : before.table = lower source
    · simp only [here, beq_self_eq_true, ↓reduceIte]
      exact ⟨under, ⟨lower_lower _, spelled.columns, spelled.some, spelled.collated⟩,
        { table with name := target }, by rw [NameMap.getElem?_insert, if_pos rfl]⟩
    · rw [if_neg (by simpa using here)]
      obtain ⟨after, afterFound, -⟩ := moved onFound here
      exact ⟨under, spelled, after, afterFound⟩
  case groups =>
    intro key stored present
    rcases entry present with ⟨-, old⟩ | ⟨-, -, old⟩ <;> exact filed.groups old
  case apart =>
    intro key other stored others name present otherPresent member otherMember
    rcases entry present with ⟨rfl, old⟩ | ⟨-, apart, old⟩ <;>
      rcases entry otherPresent with ⟨rfl, otherOld⟩ | ⟨-, otherApart, otherOld⟩
    · rfl
    · exact absurd (filed.apart old otherOld member otherMember).symm otherApart
    · exact absurd (filed.apart old otherOld member otherMember) apart
    · exact filed.apart old otherOld member otherMember
  case shared =>
    intro key stored name index present member enforced
    obtain ⟨before, old, rfl⟩ := indexAt enforced
    rcases entry present with ⟨rfl, declared⟩ | ⟨-, apart, declared⟩
    · obtain ⟨unique, kind, onTable⟩ := filed.shared declared member old
      rw [if_pos (by simp [onTable])]
      exact ⟨unique, kind, rfl⟩
    · obtain ⟨unique, kind, onTable⟩ := filed.shared declared member old
      rw [if_neg (by simpa [onTable] using apart)]
      exact ⟨unique, kind, onTable⟩

/-! ## Renaming a column -/

theorem renameColumn_names (constraints : TableConstraints) (old new : String)
    (checks : List String) :
    ({ constraints.renameColumn old new with checks } : TableConstraints).names =
      constraints.names := by
  simp [TableConstraints.names, TableConstraints.renameColumn, filterMap_map]

theorem mem_named_renameColumn
    (member : name ∈ ({ constraints.renameColumn old new with checks } : TableConstraints).named) :
    name = new ∨ (name ∈ constraints.named ∧ lower name ≠ lower old) := by
  have column : ∀ {columns : List String}, name ∈ TableConstraints.renamed old new columns ->
      name = new ∨ (name ∈ columns ∧ lower name ≠ lower old) := by
    intro columns inside
    obtain ⟨column, listed, same⟩ := List.mem_map.mp inside
    split at same
    · exact .inl same.symm
    · rename_i other
      subst same
      exact .inr ⟨listed, fun equal => other (sameName_iff.mpr equal)⟩
  simp only [TableConstraints.named, TableConstraints.renameColumn, mem_append,
    mem_flatMap, List.mem_map] at member ⊢
  rcases member with ⟨_, ⟨group, listed, rfl⟩, inside⟩ | ⟨_, ⟨key, listed, rfl⟩, inside⟩
  · exact (column inside).imp_right fun ⟨named, other⟩ => ⟨.inl ⟨group, listed, named⟩, other⟩
  · exact (column inside).imp_right fun ⟨named, other⟩ => ⟨.inr ⟨key, listed, named⟩, other⟩

section

variable (filed : Filed catalog)

include filed

theorem Filed.reindexed (key old new : String) : Filed (catalog.reindexed key old new) := by
  refine filed.revise ⟨rfl, rfl⟩ (fun stored => ⟨_, stored, rfl, rfl, rfl, rfl⟩)
    (fun stored => ⟨_, stored⟩) ?_ ?_
  · intro table constraints stored
    exact ⟨constraints, stored, List.Sublist.refl _, fun present => filed.named stored present⟩
  · intro name index stored
    rw [Catalog.reindexed, Std.ExtTreeMap.getElem?_map, map_eq_some_iff] at stored
    obtain ⟨before, present, rfl⟩ := stored
    refine ⟨before, present, ?_⟩
    split
    · refine ⟨rfl, rfl, rfl, rfl, fun spelled => ⟨spelled.table, ?_, ?_, ?_⟩⟩
      · intro column member
        obtain ⟨listed, inside, rfl⟩ := List.mem_map.mp member
        split
        · exact lower_lower new
        · exact spelled.columns listed inside
      · simpa using spelled.some
      · simpa using spelled.collated
    · exact ⟨rfl, rfl, rfl, rfl, id⟩

theorem Filed.retitled {table : String} {target : Table} {column : Column}
    (found : catalog.tables[lower table]? = some target)
    (named : target.requireColumn old = .ok (ordinal, column))
    (declared : catalog.constraintsOf[lower table]? = some constraints) :
    Filed ((catalog.setTable table (Catalog.retitled target ordinal new)).withConstraints
      (lower table) { constraints.renameColumn old new with checks }) := by
  have tableAt : ∀ {key : String} {stored : Table},
      (catalog.setTable table (Catalog.retitled target ordinal new)).tables[key]? = some stored ->
      (key = lower table ∧ stored = Catalog.retitled target ordinal new) ∨
        (key ≠ lower table ∧ catalog.tables[key]? = some stored) := by
    intro key stored present
    rw [Catalog.setTable, NameMap.getElem?_insert] at present
    split at present
    · rename_i same
      cases present
      exact .inl ⟨same.symm, rfl⟩
    · rename_i other
      exact .inr ⟨Ne.symm other, present⟩
  refine filed.revise ⟨rfl, rfl⟩ ?_ ?_ ?_ fun stored => ⟨_, stored, rfl, rfl, rfl, rfl, id⟩
  · intro key stored present
    rcases tableAt present with ⟨rfl, rfl⟩ | ⟨-, old⟩
    · exact ⟨target, found, rfl, rfl, rfl, rfl⟩
    · exact ⟨stored, old, rfl, rfl, rfl, rfl⟩
  · intro key stored present
    change ∃ after, (catalog.tables.insert (lower table) _)[key]? = some after
    rw [NameMap.getElem?_insert]
    split
    · exact ⟨_, rfl⟩
    · exact ⟨stored, present⟩
  · intro key stored present
    rw [Catalog.withConstraints, NameMap.getElem?_insert] at present
    have has := filed.named declared found
    split at present
    · rename_i same
      cases present
      subst same
      refine ⟨constraints, declared, by rw [renameColumn_names], ?_⟩
      intro after afterFound name member
      rcases tableAt afterFound with ⟨-, rfl⟩ | ⟨other, -⟩
      · rcases mem_named_renameColumn member with rfl | ⟨listed, apart⟩
        · exact Table.has_renamed named (.inr rfl)
        · exact Table.has_renamed named (.inl ⟨has name listed, apart⟩)
      · exact absurd rfl other
    · rename_i other
      refine ⟨stored, present, List.Sublist.refl _, ?_⟩
      intro after afterFound
      rcases tableAt afterFound with ⟨same, -⟩ | ⟨-, old⟩
      · exact absurd same.symm other
      · exact filed.named present old

theorem Filed.renameColumn {rewriteCheck : String -> Except Error String} {table : String} :
    Filed (CatalogMethod.renameColumn rewriteCheck table old new catalog).2 := by
  rcases @CatalogMethod.renameColumn_cases rewriteCheck catalog table old new with
    ⟨error, failed⟩ | ⟨target, ordinal, column, found, named, ⟨undeclared, done⟩ |
      ⟨constraints, checks, outcome, declared, ⟨-, done⟩ | ⟨-, done⟩⟩⟩
  · rw [failed]
    exact filed
  · rw [done]
    refine Filed.reindexed (filed.setTable found rfl ?_) _ _ _
    intro constraints stored
    rw [undeclared] at stored
    cases stored
  · rw [done]
    exact (filed.retitled found named declared).reindexed _ _ _
  · rw [done]
    exact filed.retitled found named declared

end

/-! ## Declaring indexes and constraints -/

theorem Catalog.indexNameTaken_eq_false {index : Index}
    (free : catalog.indexNameTaken index = false) :
    catalog.indexes[lower index.name]? = none ∧ (catalog.uniqueConstraint index.name = none ∨
        (index.unique = true ∧ index.kind = .btree ∧
          ∃ table, catalog.uniqueConstraint index.name = some table ∧
            lower table = lower index.table)) := by
  simp only [Catalog.indexNameTaken, Bool.or_eq_false_iff, Bool.and_eq_false_iff] at free
  obtain ⟨fresh, enforced⟩ := free
  refine ⟨isNone_iff_eq_none.mp (isSome_eq_false_iff.mp fresh), ?_⟩
  rcases enforced with own | unnamed
  · simp only [Bool.not_eq_false', Bool.and_eq_true, beq_iff_eq, Option.any_eq_true,
      sameName_iff] at own
    obtain ⟨⟨unique, kind⟩, table, named, same⟩ := own
    exact .inr ⟨unique, kind, table, named, same⟩
  · exact .inl (isNone_iff_eq_none.mp (isSome_eq_false_iff.mp unnamed))

theorem Filed.createIndex (filed : Filed catalog) {index : Index}
    (lowered : lower index.table = index.table)
    (columns : ∀ column ∈ index.columns, lower column = column)
    (onTable : catalog.tables[index.table]? = some table)
    (created : catalog.createIndex index = .ok next) : Filed next := by
  obtain ⟨rfl, free, nonempty, collated⟩ := Catalog.createIndex_eq_ok created
  obtain ⟨fresh, own⟩ := Catalog.indexNameTaken_eq_false free
  have stored : ∀ {key : String} {other : Index},
      (catalog.indexes.insert (lower index.name) index)[key]? = some other ->
      (key = lower index.name ∧ other = index) ∨ catalog.indexes[key]? = some other := by
    intro key other present
    rw [NameMap.getElem?_insert] at present
    split at present
    · rename_i same
      cases present
      exact .inl ⟨same.symm, rfl⟩
    · exact .inr present
  refine { filed with indexes := ?_, shared := ?_ }
  · intro key other present
    rcases stored present with ⟨rfl, rfl⟩ | old
    · exact ⟨rfl, ⟨lowered, columns, nonempty, collated⟩, table, onTable⟩
    · exact filed.indexes old
  · intro key constraints name other declared member present
    rcases stored present with ⟨rfl, rfl⟩ | old
    · rcases own with unnamed | ⟨unique, kind, place, named, same⟩
      · exact absurd member (Catalog.uniqueConstraint_eq_none unnamed declared)
      · obtain ⟨others, placeDeclared, placeMember⟩ := Catalog.uniqueConstraint_eq_some named
        obtain rfl := filed.apart declared placeDeclared member placeMember
        obtain ⟨before, present, -⟩ := filed.constraints declared
        have lowerPlace : lower key = key := by rw [(filed.tables present).key, lower_lower]
        exact ⟨unique, kind, by rw [<- lowered, <- same, lowerPlace]⟩
    · exact filed.shared declared member old

theorem Catalog.createUniqueConstraint_eq_ok {table : String} {columns : List String}
    (created : catalog.createUniqueConstraint table ⟨some name, columns⟩ = .ok next) :
    ∃ definition, catalog.table table = some definition ∧
      (∀ column ∈ columns, definition.Has column) ∧ catalog.indexes[lower name]? = none ∧
      catalog.uniqueConstraint name = none ∧
      next = catalog.withConstraints (lower table)
        { (catalog.constraintsOf[lower table]?).getD .empty with
          unique := ((catalog.constraintsOf[lower table]?).getD .empty).unique ++
            [⟨some name, columns⟩] } := by
  unfold Catalog.createUniqueConstraint at created
  obtain ⟨definition, found, created⟩ := Lib.bind_eq_ok created
  obtain ⟨_, checked, created⟩ := Lib.bind_eq_ok created
  obtain ⟨free, created⟩ := guard_eq_ok created
  cases created
  simp only [Bool.or_eq_true, not_or, Bool.not_eq_true, isSome_eq_false_iff,
    isNone_iff_eq_none] at free
  refine ⟨definition, ?_, has_of_requireColumns checked, free.1, free.2, rfl⟩
  unfold Catalog.requireTable at found
  split at found
  · rename_i present
    cases found
    exact present
  · cases found

theorem Filed.createUniqueConstraint (filed : Filed catalog) {table : String}
    {columns : List String} {definition : Table}
    (durable : catalog.table table = some definition) (kept : definition.temporary = false)
    (created : catalog.createUniqueConstraint table ⟨some name, columns⟩ = .ok next) :
    Filed next := by
  obtain ⟨visible, found, has, freshIndex, freshName, rfl⟩ :=
    Catalog.createUniqueConstraint_eq_ok created
  rw [durable] at found
  cases found
  obtain ⟨-, present, -⟩ := filed.durable durable kept
  generalize beforeDef : (catalog.constraintsOf[lower table]?).getD .empty = before
  have earlier : ∀ {item : String}, item ∈ before.names ->
      catalog.constraintsOf[lower table]? = some before := by
    intro item member
    cases stored : catalog.constraintsOf[lower table]? with
    | some constraints =>
      rw [stored] at beforeDef
      rw [<- beforeDef]
      rfl
    | none =>
      rw [stored] at beforeDef
      subst beforeDef
      cases member
  have titles : ({ before with unique := before.unique ++ [⟨some name, columns⟩] } :
      TableConstraints).names = before.names ++ [lower name] := by
    simp [TableConstraints.names]
  have unnamed : lower name ∉ before.names := fun member =>
    Catalog.uniqueConstraint_eq_none freshName (earlier member) member
  have entry : ∀ {key : String} {stored : TableConstraints}, (catalog.withConstraints (lower table)
        { before with unique := before.unique ++ [⟨some name, columns⟩] }).constraintsOf[key]? =
          some stored ->
      (key = lower table ∧
        stored = { before with unique := before.unique ++ [⟨some name, columns⟩] }) ∨
        (key ≠ lower table ∧ catalog.constraintsOf[key]? = some stored) := by
    intro key stored found
    rw [Catalog.withConstraints, NameMap.getElem?_insert] at found
    split at found
    · rename_i same
      cases found
      exact .inl ⟨same.symm, rfl⟩
    · rename_i other
      exact .inr ⟨Ne.symm other, found⟩
  -- a name of the new entry is the new one or one of the old entry under the same key
  have memberOf : ∀ {key item : String} {stored : TableConstraints},
      (catalog.withConstraints (lower table)
        { before with unique := before.unique ++ [⟨some name, columns⟩] }).constraintsOf[key]? =
          some stored -> item ∈ stored.names ->
      (key = lower table ∧ item = lower name) ∨
        ∃ old, catalog.constraintsOf[key]? = some old ∧ item ∈ old.names := by
    intro key item stored found member
    rcases entry found with ⟨rfl, rfl⟩ | ⟨-, old⟩
    · rw [titles, mem_append, mem_singleton] at member
      rcases member with member | rfl
      · exact .inr ⟨before, earlier member, member⟩
      · exact .inl ⟨rfl, rfl⟩
    · exact .inr ⟨stored, old, member⟩
  refine { filed with constraints := ?_, groups := ?_, apart := ?_, shared := ?_ }
  · intro key stored found
    rcases entry found with ⟨rfl, rfl⟩ | ⟨-, old⟩
    · refine ⟨definition, present, ?_⟩
      intro column member
      simp only [TableConstraints.named, flatMap_append, mem_append] at member
      have earlierNamed : column ∈ before.named -> definition.Has column := by
        intro listed
        cases stored : catalog.constraintsOf[lower table]? with
        | some constraints =>
          rw [stored] at beforeDef
          cases beforeDef
          exact filed.named stored present column listed
        | none =>
          rw [stored] at beforeDef
          subst beforeDef
          cases listed
      rcases member with (member | member) | member
      · exact earlierNamed (mem_append_left _ member)
      · exact has column (by simpa using member)
      · exact earlierNamed (mem_append_right _ member)
    · exact filed.constraints old
  · intro key stored found
    rcases entry found with ⟨rfl, rfl⟩ | ⟨-, old⟩
    · rw [titles, nodup_append]
      refine ⟨?_, by simp, ?_⟩
      · by_cases some : before.names = []
        · simp [some]
        · obtain ⟨item, member⟩ := exists_mem_of_ne_nil _ some
          exact filed.groups (earlier member)
      · intro item member other later same
        rw [mem_singleton] at later
        exact unnamed (by rwa [<- later, <- same])
    · exact filed.groups old
  · intro key other stored others item found otherFound member otherMember
    rcases memberOf found member with ⟨rfl, rfl⟩ | ⟨old, oldFound, oldMember⟩
    · rcases memberOf otherFound otherMember with ⟨rfl, -⟩ | ⟨old, oldFound, oldMember⟩
      · rfl
      · exact absurd oldMember (Catalog.uniqueConstraint_eq_none freshName oldFound)
    · rcases memberOf otherFound otherMember with ⟨rfl, rfl⟩ | ⟨later, laterFound, laterMember⟩
      · exact absurd oldMember (Catalog.uniqueConstraint_eq_none freshName oldFound)
      · exact filed.apart oldFound laterFound oldMember laterMember
  · intro key stored item index found member enforced
    rcases memberOf found member with ⟨rfl, rfl⟩ | ⟨old, oldFound, oldMember⟩
    · rw [show (catalog.withConstraints _ _).indexes = catalog.indexes from rfl, freshIndex]
        at enforced
      cases enforced
    · exact filed.shared oldFound oldMember enforced

end Steps

/-! ## Every call -/

variable {table : Table} {index : Index} {catalog : Catalog} {texts : CheckTexts}

theorem Table.has_lower {name : String} : table.Has (lower name) ↔ table.Has name := by
  simp only [Table.has_iff, lower_lower]

theorem implicitIndex_eq_some {column : Column}
    (wanted : Engine.implicitIndex table column = some index) :
    index.table = lower table.name ∧ index.columns = [lower column.name] := by
  obtain ⟨kind, -, rfl⟩ := map_eq_some_iff.mp wanted
  exact ⟨rfl, rfl⟩

theorem wantedIndex_eq_some {group : UniqueConstraint} {nth : Nat}
    (wanted : Engine.wantedIndex catalog table group nth = some index) :
    index.table = lower table.name ∧ index.columns = group.columns.map lower := by
  unfold Engine.wantedIndex at wanted
  simp only at wanted
  split at wanted
  · cases wanted
  · cases wanted
    exact ⟨rfl, rfl⟩

/-- What is checked of an index before the catalog is asked to register it: it is spelled
lowercase, and on a durable table that has its columns. -/
theorem Filed.issuedIndex (filed : Filed catalog) (issued : Issued catalog (.createIndex index)) :
    lower index.table = index.table ∧ (∀ column ∈ index.columns, lower column = column) ∧
      ∃ table, catalog.tables[index.table]? = some table ∧
        ∀ column ∈ index.columns, table.Has column := by
  cases issued with
  | implicitIndex created declared wanted =>
    rename_i table column
    obtain ⟨onTable, columns⟩ := implicitIndex_eq_some wanted
    rw [onTable, columns]
    refine ⟨lower_lower _, by simp, table, created, ?_⟩
    intro name member
    rw [mem_singleton.mp member, Table.has_lower]
    exact Table.has_iff.mpr ⟨column, declared, rfl⟩
  | uniqueIndex found named declared wanted =>
    rename_i name constraints table group nth
    obtain ⟨onTable, columns⟩ := wantedIndex_eq_some wanted
    unfold Catalog.constraints at found
    cases shadow : catalog.tempTables[lower name]? with
    | some temporary =>
      rw [if_pos (by simp only [shadow, isSome_some])] at found
      rw [(filed.tempConstraints found).1] at declared
      cases declared
    | none =>
      rw [if_neg (by simp only [shadow, isSome_none, Bool.false_eq_true,
        not_false_eq_true])] at found
      rw [Catalog.table, shadow] at named
      have key := (filed.tables named).key
      rw [onTable, columns]
      refine ⟨lower_lower _, by simp, table, by rw [<- key]; exact named, ?_⟩
      intro column member
      obtain ⟨written, listed, rfl⟩ := List.mem_map.mp member
      rw [Table.has_lower]
      exact filed.named found named written (mem_append_left _
        (mem_flatMap.mpr ⟨group, mem_of_getElem? declared, listed⟩))
  | createIndex found kept lowered resolved =>
    rename_i plan table columns
    obtain ⟨-, present, -⟩ := filed.durable found kept
    rw [lowered] at present
    refine ⟨lowered, by simp, table, present, ?_⟩
    intro name member
    obtain ⟨column, listed, rfl⟩ := List.mem_map.mp member
    rw [Table.has_lower]
    refine Table.has_iff.mpr ⟨column, ?_, rfl⟩
    have inside : ∀ {ordinals : List Nat} {found : List Column},
        ordinals.mapM (table.columns[·]?) = some found -> ∀ column ∈ found,
          column ∈ table.columns := by
      intro ordinals
      induction ordinals with
      | nil =>
        intro found resolved
        cases resolved
        exact nofun
      | cons first ordinals ih =>
        intro found resolved
        rw [mapM_cons] at resolved
        simp only [bind_eq_bind, bind_eq_some_iff, Option.pure_def, Option.some.injEq] at resolved
        obtain ⟨column, at_first, rest, later, rfl⟩ := resolved
        intro other member
        rcases mem_cons.mp member with rfl | member
        · exact mem_of_getElem? at_first
        · exact ih later other member
    exact inside resolved column listed

theorem Filed.settle (filed : Filed catalog) {result : Except Error Catalog}
    (kept : ∀ next, result = .ok next -> Filed next) : Filed (settle result catalog).2 := by
  cases result with
  | error error => exact filed
  | ok next => exact kept next rfl

theorem Filed.perform {call : Call} (filed : Filed catalog) (issued : Issued catalog call) :
    Filed (call.perform texts catalog).2 := by
  cases call with
  | createTableWith table constraints =>
    rw [Call.perform, CatalogMethod.createTableWith_apply]
    refine filed.settle fun next created => ?_
    cases issued with
    | createTable planned kept =>
      exact filed.createTableWith (planCreateTable_planned planned) kept created
    | createTableAs planned =>
      obtain ⟨planned, kept⟩ := planCreateTableAsSelect_planned planned
      exact filed.createTableWith planned kept created
  | createTempTable table constraints =>
    rw [Call.perform, CatalogMethod.createTempTable_apply]
    refine filed.settle fun next created => ?_
    cases issued with
    | createTempTable planned temporary =>
      exact filed.createTempTable (planCreateTable_planned planned) temporary created
    | createTempTableAs planned =>
      obtain ⟨planned, temporary⟩ := planCreateTableAsSelect_planned planned
      exact filed.createTempTable planned temporary created
  | dropTable name =>
    rw [Call.perform, CatalogMethod.dropTable_apply]
    refine filed.settle fun next dropped => ?_
    obtain ⟨⟨table, indexes, after⟩, removed, rfl⟩ := map_eq_ok dropped
    exact filed.dropTable removed
  | renameTable source target =>
    rw [Call.perform, CatalogMethod.renameTable_apply]
    exact filed.settle fun next renamed => filed.renameTable renamed
  | addColumn table column =>
    rw [Call.perform, CatalogMethod.addColumn_apply]
    exact filed.settle fun next added => filed.addColumn added
  | renameColumn table old new => exact filed.renameColumn
  | dropColumn table column =>
    rw [Call.perform, CatalogMethod.dropColumn_apply]
    refine filed.settle fun next dropped => ?_
    obtain ⟨⟨ordinal, after⟩, removed, rfl⟩ := map_eq_ok dropped
    cases issued with
    | dropColumn found kept rowid =>
      obtain ⟨unshadowed, -, same⟩ := filed.durable found kept
      exact filed.dropColumn (by rw [same]; exact unshadowed) removed
  | createIndex index =>
    rw [Call.perform, CatalogMethod.createIndex_apply]
    refine filed.settle fun next created => ?_
    obtain ⟨lowered, columns, table, onTable, -⟩ := filed.issuedIndex issued
    exact filed.createIndex lowered columns onTable created
  | dropIndex name =>
    rw [Call.perform, CatalogMethod.dropIndex_apply]
    refine filed.settle fun next dropped => ?_
    obtain ⟨⟨index, after⟩, removed, rfl⟩ := map_eq_ok dropped
    exact filed.dropIndex removed
  | createUniqueConstraint table constraint =>
    rw [Call.perform, CatalogMethod.createUniqueConstraint_apply]
    refine filed.settle fun next created => ?_
    cases issued with
    | createUniqueConstraint found kept => exact filed.createUniqueConstraint found kept created
  | dropUniqueConstraint name => exact filed.dropUniqueConstraint name

theorem filed_of_runs {allowed : Catalog -> Call -> Prop} {calls : List Call}
    (run : (catalogSystem texts allowed).Runs calls catalog) : Filed catalog := by
  refine System.Runs.invariant (fun _ catalog => Filed catalog) ?_ ?_ run
  · rintro _ rfl
    exact .empty
  · rintro _ catalog call _ filed ⟨issued, -, rfl⟩
    exact filed.perform issued

end InlaySql.Sql
