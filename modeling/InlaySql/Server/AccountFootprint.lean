import InlaySql.Server.AccountTables

/-!
# What an engine statement touches

The cells of the account tables: which of the tables and indexes exist, the rows of each
account name, the grants of each account on each table, and the grant of each row id.
-/

namespace InlaySql.Server

open List Option Lib Sql

inductive AccountKey where
  | schema
  | user (name : String)
  | grant (account target : String)
  | row (id : Int)
  deriving DecidableEq

namespace AccountKey

abbrev Content : AccountKey -> Type
  | schema => Bool × Bool × Bool × Bool
  | user _ => List UserRow
  | grant _ _ => List GrantRow
  | row _ => List GrantRow

end AccountKey

namespace AccountTables

def cell : (key : AccountKey) -> AccountTables -> key.Content
  | .schema, tables =>
    (tables.userTable.isSome, tables.userIndex, tables.grantTable.isSome, tables.grantIndex)
  | .user name, tables => tables.users.filter (·.name = name)
  | .grant account target, tables =>
    tables.grants.filter fun row => row.account = account ∧ row.target = target
  | .row id, tables => tables.grants.filter (·.id = id)

end AccountTables

namespace Command

/-- The cells an engine statement reads or may change. -/
def touched : Command -> Choice -> AccountTables -> Set AccountKey
  | random, _, _ => ∅
  | catalog, _, _ | createUserTable, _, _ | createGrantTable, _, _ | createGrantIndex, _, _ =>
    {.schema}
  | createUserIndex, _, _ | selectUsers, _, _ => {.schema} ∪ Set.range .user
  | insertUser row, _, _ => {.schema, .user row.name}
  | selectUser name, _, _ | updateAuth name _ _, _, _ | updateGlobal name _, _, _
  | deleteUser name, _, _ => {.schema, .user name}
  | selectGrant account target, _, _ | selectGrantId account target, _, _ =>
    {.schema, .grant account target}
  | insertGrant account target _, choice, _ =>
    {.schema, .grant account target, .row choice.rowId}
  | updateGrant id _, _, tables => {.schema, .row id} ∪
      {key | ∃ row ∈ tables.grants, row.id = id ∧ key = .grant row.account row.target}
  | deleteGrant account target, _, tables => {.schema, .grant account target} ∪
      {key | ∃ row ∈ tables.grants, row.account = account ∧ row.target = target ∧ key = .row row.id}
  | deleteGrants account, _, tables => {.schema} ∪ Set.range (.grant account) ∪
      {key | ∃ row ∈ tables.grants, row.account = account ∧ key = .row row.id}

end Command

namespace AccountTables

variable {choice : Choice} {α : Type} {tables other : AccountTables}

/-! ## Changes of a table -/

end AccountTables

namespace Choice

variable {ρ α : Type} {choice : Choice}

theorem onRows_kept {part : ρ -> Bool} {table : Option (List ρ)}
    {change : List ρ -> Option (α × List ρ)}
    (kept : ∀ answer after, change (table.getD []) = some (answer, after) ->
      after.filter part = (table.getD []).filter part) :
    ((choice.onRows table change).2.getD []).filter part = (table.getD []).filter part := by
  unfold onRows
  split
  · split
    · next answer after ran => exact kept answer after ran
    · rfl
  · rfl

theorem isSome_onRows (table : Option (List ρ)) (change : List ρ -> Option (α × List ρ)) :
    (choice.onRows table change).2.isSome = table.isSome := by
  unfold onRows
  split
  · split <;> rfl
  · rfl

section Settled

variable {table tableOther : Option (List ρ)} {change changeOther : List ρ -> Option (α × List ρ)}

theorem onRows_settled (present : tableOther.isSome = table.isSome)
    (alike : (changeOther (tableOther.getD [])).map Prod.fst =
      (change (table.getD [])).map Prod.fst) :
    (choice.onRows tableOther changeOther).1 = (choice.onRows table change).1 := by
  cases failed : choice.fault with
  | true => simp [onRows, failed]
  | false =>
    cases table with
    | none =>
      obtain rfl : tableOther = none := by simpa using present
      simp [onRows, failed]
    | some rows =>
      obtain ⟨rowsOther, rfl⟩ := isSome_iff_exists.1 (present.trans rfl)
      cases ran : change rows with
      | none =>
        have ranOther : changeOther rowsOther = none := by simpa [ran] using alike
        simp [onRows, failed, ran, ranOther]
      | some result =>
        obtain ⟨other, ranOther, same⟩ :
            ∃ other, changeOther rowsOther = some other ∧ other.1 = result.1 := by
          simpa [ran] using alike
        simp [onRows, failed, ran, ranOther, same]

/-- Where a change of rows is answered alike, the part it settles ends alike. -/
theorem filter_onRows_settled {part : ρ -> Bool} (present : tableOther.isSome = table.isSome)
    (alike : (changeOther (tableOther.getD [])).map Prod.fst =
      (change (table.getD [])).map Prod.fst)
    (same : (tableOther.getD []).filter part = (table.getD []).filter part)
    (later : ∀ answer after afterOther, change (table.getD []) = some (answer, after) ->
      changeOther (tableOther.getD []) = some (answer, afterOther) ->
      afterOther.filter part = after.filter part) :
    ((choice.onRows tableOther changeOther).2.getD []).filter part =
      ((choice.onRows table change).2.getD []).filter part := by
  cases failed : choice.fault with
  | true => simpa [onRows, failed] using same
  | false =>
    cases table with
    | none =>
      obtain rfl : tableOther = none := by simpa using present
      simp [onRows, failed]
    | some rows =>
      obtain ⟨rowsOther, rfl⟩ := isSome_iff_exists.1 (present.trans rfl)
      cases ran : change rows with
      | none =>
        have ranOther : changeOther rowsOther = none := by simpa [ran] using alike
        simpa [onRows, failed, ran, ranOther] using same
      | some result =>
        obtain ⟨answer, after⟩ := result
        obtain ⟨⟨answerOther, afterOther⟩, ranOther, rfl⟩ :
            ∃ other, changeOther rowsOther = some other ∧ other.1 = answer := by
          simpa [ran] using alike
        simpa [onRows, failed, ran, ranOther] using later _ _ _ ran ranOther

end Settled

end Choice

/-! ## Parts of the rows after a change -/

section Parts

variable {ρ : Type} {part : ρ -> Bool} {rows : List ρ}

section

variable {change : ρ -> ρ} (kept : ∀ row, part (change row) = part row)

include kept

theorem filter_map_of_kept : (rows.map change).filter part = (rows.filter part).map change := by
  rw [List.filter_map]
  congr 2
  funext row
  exact kept row

theorem filter_map_eq_self (still : ∀ row ∈ rows, part row = true -> change row = row) :
    (rows.map change).filter part = rows.filter part := by
  rw [filter_map_of_kept kept, map_congr_left fun row listed =>
    still row (mem_filter.1 listed).1 (mem_filter.1 listed).2, List.map_id']

end

theorem filter_filter_eq_self {stays : ρ -> Bool}
    (still : ∀ row ∈ rows, part row = true -> stays row = true) :
    (rows.filter stays).filter part = rows.filter part := by
  rw [List.filter_filter]
  refine filter_congr fun row listed => ?_
  cases inside : part row with
  | false => rfl
  | true => simp [still row listed inside]

theorem filter_append_eq_self {row : ρ} (outside : part row = false) :
    (rows ++ [row]).filter part = rows.filter part := by
  simp [outside]

end Parts

namespace AccountTables

variable {command : Command} {choice : Choice} {tables other : AccountTables} {key : AccountKey}
  {α : Type}

theorem onUsers_kept {change : List UserRow -> Option (α × List UserRow)}
    (kept : ∀ name, key = .user name -> ∀ answer after,
      change tables.users = some (answer, after) ->
        after.filter (·.name = name) = tables.users.filter (·.name = name)) :
    cell key (onUsers choice tables change).2 = cell key tables := by
  cases key with
  | schema => simp [cell, onUsers, Choice.isSome_onRows]
  | user name => exact Choice.onRows_kept (kept name rfl)
  | grant account target => rfl
  | row id => rfl

theorem onGrants_kept {change : List GrantRow -> Option (α × List GrantRow)}
    (keptGrant : ∀ account target, key = .grant account target -> ∀ answer after,
      change tables.grants = some (answer, after) ->
      after.filter (fun row => row.account = account ∧ row.target = target) =
        tables.grants.filter fun row => row.account = account ∧ row.target = target)
    (keptRow : ∀ id, key = .row id -> ∀ answer after,
      change tables.grants = some (answer, after) ->
      after.filter (·.id = id) = tables.grants.filter (·.id = id)) :
    cell key (onGrants choice tables change).2 = cell key tables := by
  cases key with
  | schema => simp [cell, onGrants, Choice.isSome_onRows]
  | user name => rfl
  | grant account target => exact Choice.onRows_kept (keptGrant account target rfl)
  | row id => exact Choice.onRows_kept (keptRow id rfl)

theorem updateUsers_kept {name : String} {update : UserRow -> UserRow}
    (named : ∀ row, (update row).name = row.name) (outside : key ≠ .user name) :
    cell key (onUsers choice tables fun rows =>
      some ((), rows.map fun row => if row.name = name then update row else row)).2 =
      cell key tables := by
  refine onUsers_kept fun other isKey answer after ran => ?_
  obtain ⟨-, rfl⟩ := Prod.mk.inj (Option.some.inj ran)
  refine filter_map_eq_self (fun row => ?_) fun row _ inside => if_neg fun same => ?_
  · split
    · rw [named]
    · rfl
  · exact outside (by rw [isKey, <- of_decide_eq_true inside, same])

theorem selectGrants_kept {answer : List GrantRow -> α} :
    cell key (onGrants choice tables fun rows => some (answer rows, rows)).2 = cell key tables := by
  refine onGrants_kept (fun _ _ _ _ after ran => ?_) fun _ _ _ after ran => ?_
  all_goals
    obtain ⟨-, rfl⟩ := Prod.mk.inj (Option.some.inj ran)
    rfl

theorem onSchema_kept {change : Option AccountTables} (outside : key ≠ .schema)
    (kept : ∀ after, change = some after → after.users = tables.users ∧ after.grants = tables.grants) :
    cell key (onSchema choice tables change).2 = cell key tables := by
  unfold onSchema
  split
  · next after _ =>
    obtain ⟨users, grants⟩ := kept after rfl
    cases key with
    | schema => exact absurd rfl outside
    | user name => simp only [cell, users]
    | grant account target => simp only [cell, grants]
    | row id => simp only [cell, grants]
  · rfl

/-- A statement leaves the cells it does not touch as they are. -/
theorem cell_kept (outside : key ∉ command.touched choice tables) :
    cell key (runCommand command choice tables).2 = cell key tables := by
  cases command with
  | catalog => rfl
  | random => rfl
  | createUserTable =>
    refine onSchema_kept outside fun after created => ?_
    split at created
    · cases created
    · next missing =>
      obtain rfl := Option.some.inj created
      simp [users, grants, not_isSome_iff_eq_none.1 missing]
  | createUserIndex =>
    refine onSchema_kept (fun same => outside (.inl same)) fun after created => ?_
    split at created
    · obtain rfl := Option.some.inj created
      exact ⟨rfl, rfl⟩
    · cases created
  | createGrantTable =>
    refine onSchema_kept outside fun after created => ?_
    split at created
    · cases created
    · next missing =>
      obtain rfl := Option.some.inj created
      simp [users, grants, not_isSome_iff_eq_none.1 missing]
  | createGrantIndex =>
    refine onSchema_kept outside fun after created => ?_
    split at created
    · obtain rfl := Option.some.inj created
      exact ⟨rfl, rfl⟩
    · cases created
  | insertUser row =>
    refine onUsers_kept fun name isKey answer after ran => ?_
    split at ran
    · cases ran
    · obtain ⟨-, rfl⟩ := Prod.mk.inj (Option.some.inj ran)
      refine filter_append_eq_self (decide_eq_false fun same => outside ?_)
      simp [Command.touched, isKey, same]
  | selectUser name => rfl
  | selectUsers => 
    refine onUsers_kept fun name isKey answer after ran => ?_
    obtain ⟨-, rfl⟩ := Prod.mk.inj (Option.some.inj ran)
    rfl
  | updateAuth name native sha2 =>
    exact updateUsers_kept (fun _ => rfl) fun same => outside (by simp [Command.touched, same])
  | updateGlobal name privileges =>
    exact updateUsers_kept (fun _ => rfl) fun same => outside (by simp [Command.touched, same])
  | deleteUser name =>
    refine onUsers_kept fun other isKey answer after ran => ?_
    obtain ⟨-, rfl⟩ := Prod.mk.inj (Option.some.inj ran)
    have different : other ≠ name := fun same => outside (by simp [Command.touched, isKey, same])
    refine filter_filter_eq_self fun row _ inside => ?_
    simpa [of_decide_eq_true inside] using different
  | selectGrant account target => exact selectGrants_kept
  | selectGrantId account target => exact selectGrants_kept
  | insertGrant account target privileges =>
    refine onGrants_kept (fun other table isKey answer after ran => ?_)
      fun id isKey answer after ran => ?_
    all_goals
      split at ran
      · cases ran
      obtain ⟨-, rfl⟩ := Prod.mk.inj (Option.some.inj ran)
      refine filter_append_eq_self (decide_eq_false fun same => outside ?_)
    · obtain ⟨rfl, rfl⟩ := same
      simp [Command.touched, isKey]
    · subst same
      simp [Command.touched, isKey]
  | updateGrant id privileges =>
    refine onGrants_kept (fun account target isKey answer after ran => ?_)
      fun other isKey answer after ran => ?_
    all_goals obtain ⟨-, rfl⟩ := Prod.mk.inj (Option.some.inj ran)
    · refine filter_map_eq_self (fun row => ?_) fun row listed inside => if_neg fun same => ?_
      · split <;> rfl
      · exact outside (.inr ⟨row, listed, same, by
          rw [isKey, (of_decide_eq_true inside).1, (of_decide_eq_true inside).2]⟩)
    · refine filter_map_eq_self (fun row => ?_) fun row listed inside => if_neg fun same => ?_
      · split <;> rfl
      · exact outside (.inl (.inr (by rw [isKey, <- of_decide_eq_true inside, same]; rfl)))
  | deleteGrant account target =>
    refine onGrants_kept (fun other table isKey answer after ran => ?_)
      fun id isKey answer after ran => ?_
    all_goals obtain ⟨-, rfl⟩ := Prod.mk.inj (Option.some.inj ran)
    · refine filter_filter_eq_self fun row listed inside => ?_
      obtain ⟨rfl, rfl⟩ := of_decide_eq_true inside
      refine decide_eq_true fun same => outside (.inl (.inr ?_))
      rw [isKey, same.1, same.2]
      rfl
    · refine filter_filter_eq_self fun row listed inside => ?_
      refine decide_eq_true fun same => outside (.inr ⟨row, listed, same.1, same.2, ?_⟩)
      rw [isKey, of_decide_eq_true inside]
  | deleteGrants account =>
    refine onGrants_kept (fun other table isKey answer after ran => ?_)
      fun id isKey answer after ran => ?_
    all_goals obtain ⟨-, rfl⟩ := Prod.mk.inj (Option.some.inj ran)
    · refine filter_filter_eq_self fun row listed inside => ?_
      obtain ⟨rfl, rfl⟩ := of_decide_eq_true inside
      refine decide_eq_true fun same => outside (.inl (.inr ⟨row.target, ?_⟩))
      rw [isKey, same]
    · refine filter_filter_eq_self fun row listed inside => ?_
      refine decide_eq_true fun same => outside (.inr ⟨row, listed, same, ?_⟩)
      rw [isKey, of_decide_eq_true inside]

/-! ## What a statement finds decides what it does -/

section Settled

section

variable (schema : cell .schema other = cell .schema tables)

include schema

/-- The schema cell says which tables and indexes there are. -/
theorem present_of_schema :
    other.userTable.isSome = tables.userTable.isSome ∧ other.userIndex = tables.userIndex ∧
      other.grantTable.isSome = tables.grantTable.isSome ∧ other.grantIndex = tables.grantIndex := by
  simpa [cell] using schema

theorem handle_of_schema : other.handle = tables.handle := by
  obtain ⟨users, -, grants, -⟩ := present_of_schema schema
  simp [handle, users, grants]

end

theorem cell_onUsers_settled {change changeOther : List UserRow -> Option (α × List UserRow)}
    (schema : cell .schema other = cell .schema tables) (same : cell key other = cell key tables)
    (alike : (changeOther other.users).map Prod.fst = (change tables.users).map Prod.fst)
    (later : ∀ name, key = .user name -> ∀ answer after afterOther,
      change tables.users = some (answer, after) ->
      changeOther other.users = some (answer, afterOther) ->
      afterOther.filter (·.name = name) = after.filter (·.name = name)) :
    cell key (onUsers choice other changeOther).2 = cell key (onUsers choice tables change).2 := by
  cases key with
  | schema => simpa [cell, onUsers, Choice.isSome_onRows] using schema
  | user name =>
    exact Choice.filter_onRows_settled (present_of_schema schema).1 alike same (later name rfl)
  | grant account target => exact same
  | row id => exact same

theorem cell_onGrants_settled {change changeOther : List GrantRow -> Option (α × List GrantRow)}
    (schema : cell .schema other = cell .schema tables) (same : cell key other = cell key tables)
    (alike : (changeOther other.grants).map Prod.fst = (change tables.grants).map Prod.fst)
    (laterGrant : ∀ account target, key = .grant account target -> ∀ answer after afterOther,
      change tables.grants = some (answer, after) ->
      changeOther other.grants = some (answer, afterOther) ->
      afterOther.filter (fun row => row.account = account ∧ row.target = target) =
        after.filter fun row => row.account = account ∧ row.target = target)
    (laterRow : ∀ id, key = .row id -> ∀ answer after afterOther,
      change tables.grants = some (answer, after) ->
      changeOther other.grants = some (answer, afterOther) ->
      afterOther.filter (·.id = id) = after.filter (·.id = id)) :
    cell key (onGrants choice other changeOther).2 = cell key (onGrants choice tables change).2 := by
  obtain ⟨-, -, present, -⟩ := present_of_schema schema
  cases key with
  | schema => simpa [cell, onGrants, Choice.isSome_onRows] using schema
  | user name => exact same
  | grant account target =>
    exact Choice.filter_onRows_settled present alike same (laterGrant account target rfl)
  | row id => exact Choice.filter_onRows_settled present alike same (laterRow id rfl)

theorem cell_onUsers_change {change : List UserRow -> List UserRow}
    (schema : cell .schema other = cell .schema tables) (same : cell key other = cell key tables)
    (parts : ∀ rows name, (change rows).filter (·.name = name) =
      change (rows.filter (·.name = name))) :
    cell key (onUsers choice other fun rows => some ((), change rows)).2 =
      cell key (onUsers choice tables fun rows => some ((), change rows)).2 := by
  refine cell_onUsers_settled schema same rfl fun name isKey answer after afterOther ran ranOther => ?_
  cases ran
  cases ranOther
  subst isKey
  rw [parts, parts]
  exact congrArg change same

theorem cell_onGrants_change {change : List GrantRow -> List GrantRow}
    (schema : cell .schema other = cell .schema tables) (same : cell key other = cell key tables)
    (partsGrant : ∀ rows account target,
      (change rows).filter (fun row => row.account = account ∧ row.target = target) =
        change (rows.filter fun row => row.account = account ∧ row.target = target))
    (partsRow : ∀ rows id, (change rows).filter (·.id = id) = change (rows.filter (·.id = id))) :
    cell key (onGrants choice other fun rows => some ((), change rows)).2 =
      cell key (onGrants choice tables fun rows => some ((), change rows)).2 := by
  refine cell_onGrants_settled schema same rfl
    (fun account target isKey answer after afterOther ran ranOther => ?_)
    fun id isKey answer after afterOther ran ranOther => ?_
  all_goals
    cases ran
    cases ranOther
    subst isKey
  · rw [partsGrant, partsGrant]
    exact congrArg change same
  · rw [partsRow, partsRow]
    exact congrArg change same

theorem onUsers_select {answer : List UserRow -> α} :
    cell key (onUsers choice tables fun rows => some (answer rows, rows)).2 = cell key tables := by
  refine onUsers_kept fun name isKey result after ran => ?_
  obtain ⟨-, rfl⟩ := Prod.mk.inj (Option.some.inj ran)
  rfl

variable {change changeOther : Option AccountTables}

section

variable (alike : changeOther.isSome = change.isSome)

include alike

/-- A change of the schema is made or refused alike in alike tables. -/
theorem onSchema_settled :
    (onSchema choice other changeOther).1 = (onSchema choice tables change).1 := by
  cases failed : choice.fault with
  | true => simp [onSchema, failed]
  | false => cases change <;> cases changeOther <;> simp_all [onSchema]

theorem cell_onSchema_settled (same : cell key other = cell key tables)
    (later : ∀ after afterOther, change = some after -> changeOther = some afterOther -> cell key
      afterOther = cell key after) :
    cell key (onSchema choice other changeOther).2 = cell key (onSchema choice tables change).2 := by
  cases failed : choice.fault with
  | true => simpa [onSchema, failed] using same
  | false =>
    cases change with
    | none =>
      obtain rfl : changeOther = none := by simpa using alike
      simpa [onSchema, failed] using same
    | some after =>
      obtain ⟨afterOther, rfl⟩ := isSome_iff_exists.1 (alike.trans rfl)
      simpa [onSchema, failed] using later after afterOther rfl rfl

end

section

variable (same : ∀ name, cell (.user name) other = cell (.user name) tables)

include same

/-- The rows of all names are the rows of the table, up to order. -/
theorem users_perm : other.users.Perm tables.users := by
  refine perm_iff_count.2 fun row => ?_
  have here : ∀ rows : List UserRow, rows.count row = (rows.filter (·.name = row.name)).count row :=
    fun rows => (count_filter (by simp)).symm
  rw [here other.users, here tables.users]
  exact congrArg (List.count row) (same row.name)

theorem nodup_names_iff : (other.users.map (·.name)).Nodup ↔ (tables.users.map (·.name)).Nodup :=
  ((users_perm same).map _).nodup_iff

end

theorem exists_grant_of_account {account : String} {property : GrantRow -> Prop}
    (same : ∀ target, cell (.grant account target) other = cell (.grant account target) tables) :
    (∃ row ∈ other.grants, row.account = account ∧ property row) ↔
      ∃ row ∈ tables.grants, row.account = account ∧ property row := by
  have listed : ∀ row : GrantRow, row.account = account ->
      (row ∈ other.grants ↔ row ∈ tables.grants) := by
    intro row of
    have part := congrArg (row ∈ ·) (same row.target)
    simpa [cell, of] using part
  exact exists_congr fun row =>
    ⟨fun ⟨inside, of, held⟩ => ⟨(listed row of).1 inside, of, held⟩,
      fun ⟨inside, of, held⟩ => ⟨(listed row of).2 inside, of, held⟩⟩

end Settled

end AccountTables

namespace Command

open AccountTables

variable {choice : Choice} {tables other : AccountTables}

/-- The cells a statement touches decide its answer, and what becomes of them. -/
def Settles (command : Command) (choice : Choice) (tables other : AccountTables) : Prop :=
  (runCommand command choice other).1 = (runCommand command choice tables).1 ∧
    command.touched choice other = command.touched choice tables ∧
    ∀ key ∈ command.touched choice tables,
      cell key (runCommand command choice other).2 = cell key (runCommand command choice tables).2

def AgreeOn (command : Command) (choice : Choice) (tables other : AccountTables) : Prop :=
  ∀ key ∈ command.touched choice tables, cell key other = cell key tables

section Schema

variable {name : String}

theorem settles_catalog (agree : catalog.AgreeOn choice tables other) :
    catalog.Settles choice tables other := by
  obtain ⟨users, -, grants, -⟩ := present_of_schema (agree .schema rfl)
  refine ⟨?_, rfl, agree⟩
  simp only [runCommand, users, grants]
  rfl

theorem settles_createUserTable (agree : createUserTable.AgreeOn choice tables other) :
    createUserTable.Settles choice tables other := by
  obtain ⟨users, index, grants, grantIndex⟩ := present_of_schema (agree .schema rfl)
  have alike : (if other.userTable.isSome then none
        else some { other with userTable := some [] }).isSome =
      (if tables.userTable.isSome then none
        else some { tables with userTable := some [] }).isSome := by
    rw [users]
    split <;> rfl
  refine ⟨onSchema_settled alike, rfl, fun key inside => ?_⟩
  obtain rfl : key = .schema := inside
  refine cell_onSchema_settled alike (agree .schema rfl) fun after afterOther ran ranOther => ?_
  split at ran <;> cases ran
  split at ranOther <;> cases ranOther
  simp [cell, index, grants, grantIndex]

/-- Whether two rows share a name decides whether the index can be made. -/
theorem settles_createUserIndex (agree : createUserIndex.AgreeOn choice tables other) :
    createUserIndex.Settles choice tables other := by
  obtain ⟨users, index, grants, grantIndex⟩ := present_of_schema (agree .schema (.inl rfl))
  have names := nodup_names_iff fun name => agree (.user name) (.inr ⟨name, rfl⟩)
  have alike : (if other.userTable.isSome ∧ other.userIndex = false ∧
        (other.users.map (·.name)).Nodup then some { other with userIndex := true }
        else none).isSome =
      (if tables.userTable.isSome ∧ tables.userIndex = false ∧
        (tables.users.map (·.name)).Nodup then some { tables with userIndex := true }
        else none).isSome := by
    simp only [users, index, names]
    split <;> rfl
  refine ⟨onSchema_settled alike, rfl, fun key inside => ?_⟩
  refine cell_onSchema_settled alike (agree key inside) fun after afterOther ran ranOther => ?_
  split at ran <;> cases ran
  split at ranOther <;> cases ranOther
  rcases inside with rfl | ⟨name, rfl⟩
  · simp [cell, users, grants, grantIndex]
  · exact agree (.user name) (.inr ⟨name, rfl⟩)

theorem settles_createGrantTable (agree : createGrantTable.AgreeOn choice tables other) :
    createGrantTable.Settles choice tables other := by
  obtain ⟨users, index, grants, grantIndex⟩ := present_of_schema (agree .schema rfl)
  have alike : (if other.grantTable.isSome then none
        else some { other with grantTable := some [] }).isSome =
      (if tables.grantTable.isSome then none
        else some { tables with grantTable := some [] }).isSome := by
    rw [grants]
    split <;> rfl
  refine ⟨onSchema_settled alike, rfl, fun key inside => ?_⟩
  obtain rfl : key = .schema := inside
  refine cell_onSchema_settled alike (agree .schema rfl) fun after afterOther ran ranOther => ?_
  split at ran <;> cases ran
  split at ranOther <;> cases ranOther
  simp [cell, users, index, grantIndex]

theorem settles_createGrantIndex (agree : createGrantIndex.AgreeOn choice tables other) :
    createGrantIndex.Settles choice tables other := by
  obtain ⟨users, index, grants, grantIndex⟩ := present_of_schema (agree .schema rfl)
  have alike : (if other.grantTable.isSome ∧ other.grantIndex = false
        then some { other with grantIndex := true } else none).isSome =
      (if tables.grantTable.isSome ∧ tables.grantIndex = false
        then some { tables with grantIndex := true } else none).isSome := by
    simp only [grants, grantIndex]
    split <;> rfl
  refine ⟨onSchema_settled alike, rfl, fun key inside => ?_⟩
  obtain rfl : key = .schema := inside
  refine cell_onSchema_settled alike (agree .schema rfl) fun after afterOther ran ranOther => ?_
  split at ran <;> cases ran
  split at ranOther <;> cases ranOther
  simp [cell, users, index, grants]

end Schema

section Users

theorem settles_select {command : Command} (agree : command.AgreeOn choice tables other)
    (answer : (runCommand command choice other).1 = (runCommand command choice tables).1)
    (touched : command.touched choice other = command.touched choice tables)
    (reads : ∀ key tables, cell key (runCommand command choice tables).2 = cell key tables) :
    command.Settles choice tables other :=
  ⟨answer, touched, fun key inside => by rw [reads, reads, agree key inside]⟩

variable {name : String}

theorem settles_selectUser (agree : (selectUser name).AgreeOn choice tables other) :
    (selectUser name).Settles choice tables other := by
  have schema := agree .schema (.inl rfl)
  have rows : other.users.filter (·.name = name) = tables.users.filter (·.name = name) :=
    agree (.user name) (.inr rfl)
  refine settles_select agree (Prod.ext ?_ (handle_of_schema schema)) rfl fun _ _ => rfl
  exact Choice.onRows_settled (present_of_schema schema).1 (congrArg some rows)

theorem settles_selectUsers (agree : selectUsers.AgreeOn choice tables other) :
    selectUsers.Settles choice tables other := by
  have rows : other.users.Perm tables.users :=
    users_perm fun name => agree (.user name) (.inr ⟨name, rfl⟩)
  refine settles_select agree ?_ rfl fun _ _ => onUsers_select
  exact Choice.onRows_settled (present_of_schema (agree .schema (.inl rfl))).1
    (congrArg some (Multiset.coe_eq_coe.2 rows))

/-- A taken name refuses the row, and only the rows of that name say so. -/
theorem settles_insertUser {row : UserRow} (agree : (insertUser row).AgreeOn choice tables other) :
    (insertUser row).Settles choice tables other := by
  have schema := agree .schema (.inl rfl)
  have rows : other.users.filter (·.name = row.name) = tables.users.filter (·.name = row.name) :=
    agree (.user row.name) (.inr rfl)
  have taken : (∃ taken ∈ other.users, taken.name = row.name) ↔
      ∃ taken ∈ tables.users, taken.name = row.name := by
    have nonempty := congrArg (· ≠ []) rows
    simpa using nonempty
  have alike : (((if other.userIndex ∧ ∃ taken ∈ other.users, taken.name = row.name then none
        else some ((), other.users ++ [row])) : Option (Unit × List UserRow)).map Prod.fst) =
      (if tables.userIndex ∧ ∃ taken ∈ tables.users, taken.name = row.name then none
        else some ((), tables.users ++ [row])).map Prod.fst := by
    simp only [(present_of_schema schema).2.1, taken]
    split <;> rfl
  refine ⟨Choice.onRows_settled (present_of_schema schema).1 alike, rfl, fun key inside => ?_⟩
  refine cell_onUsers_settled schema (agree key inside) alike
    fun name isKey answer after afterOther ran ranOther => ?_
  split at ran <;> cases ran
  split at ranOther <;> cases ranOther
  obtain rfl : name = row.name := by
    rcases inside with rfl | rfl
    · cases isKey
    · exact (AccountKey.user.inj isKey).symm
  rw [filter_append, filter_append, rows]

theorem settles_updateAuth {native sha2 : Option String}
    (agree : (updateAuth name native sha2).AgreeOn choice tables other) :
    (updateAuth name native sha2).Settles choice tables other := by
  have schema := agree .schema (.inl rfl)
  refine ⟨Choice.onRows_settled (present_of_schema schema).1 rfl, rfl, fun key inside => ?_⟩
  exact cell_onUsers_change schema (agree key inside) fun rows part =>
    filter_map_of_kept fun row => by split <;> rfl

theorem settles_updateGlobal {privileges : Int}
    (agree : (updateGlobal name privileges).AgreeOn choice tables other) :
    (updateGlobal name privileges).Settles choice tables other := by
  have schema := agree .schema (.inl rfl)
  refine ⟨Choice.onRows_settled (present_of_schema schema).1 rfl, rfl, fun key inside => ?_⟩
  exact cell_onUsers_change schema (agree key inside) fun rows part =>
    filter_map_of_kept fun row => by split <;> rfl

theorem settles_deleteUser (agree : (deleteUser name).AgreeOn choice tables other) :
    (deleteUser name).Settles choice tables other := by
  have schema := agree .schema (.inl rfl)
  refine ⟨Choice.onRows_settled (present_of_schema schema).1 rfl, rfl, fun key inside => ?_⟩
  exact cell_onUsers_change schema (agree key inside) fun rows part => filter_comm ..

end Users

section Grants

variable {account target : String}

theorem settles_selectGrant (agree : (selectGrant account target).AgreeOn choice tables other) :
    (selectGrant account target).Settles choice tables other := by
  obtain ⟨-, -, present, -⟩ := present_of_schema (agree .schema (.inl rfl))
  have rows : other.grants.filter (fun row => row.account = account ∧ row.target = target) =
      tables.grants.filter fun row => row.account = account ∧ row.target = target :=
    agree (.grant account target) (.inr rfl)
  refine settles_select agree ?_ rfl fun _ _ => selectGrants_kept
  have listed := congrArg (List.map GrantRow.privileges) rows
  exact Choice.onRows_settled present (congrArg some listed)

theorem settles_selectGrantId (agree : (selectGrantId account target).AgreeOn choice tables other) :
    (selectGrantId account target).Settles choice tables other := by
  obtain ⟨-, -, present, -⟩ := present_of_schema (agree .schema (.inl rfl))
  have rows : other.grants.filter (fun row => row.account = account ∧ row.target = target) =
      tables.grants.filter fun row => row.account = account ∧ row.target = target :=
    agree (.grant account target) (.inr rfl)
  refine settles_select agree ?_ rfl fun _ _ => selectGrants_kept
  have listed := congrArg (List.map GrantRow.id) rows
  exact Choice.onRows_settled present (congrArg some listed)

/-- A taken row id refuses the grant. -/
theorem settles_insertGrant {privileges : Int}
    (agree : (insertGrant account target privileges).AgreeOn choice tables other) :
    (insertGrant account target privileges).Settles choice tables other := by
  have schema := agree .schema (.inl rfl)
  have rows := agree (.row choice.rowId) (.inr (.inr rfl))
  have taken : (∃ row ∈ other.grants, row.id = choice.rowId) ↔
      ∃ row ∈ tables.grants, row.id = choice.rowId := by
    have nonempty := congrArg (· ≠ []) rows
    simpa [cell] using nonempty
  let row : GrantRow := ⟨choice.rowId, account, target, privileges⟩
  have alike : (((if ∃ row ∈ other.grants, row.id = choice.rowId then none
        else some ((), other.grants ++ [row])) : Option (Unit × List GrantRow)).map Prod.fst) =
      (if ∃ row ∈ tables.grants, row.id = choice.rowId then none
        else some ((), tables.grants ++ [row])).map Prod.fst := by
    simp only [taken]
    split <;> rfl
  refine ⟨Choice.onRows_settled (present_of_schema schema).2.2.1 alike, rfl, fun key inside => ?_⟩
  refine cell_onGrants_settled schema (agree key inside) alike
    (fun other table isKey answer after afterOther ran ranOther => ?_)
    fun id isKey answer after afterOther ran ranOther => ?_
  all_goals
    split at ran <;> cases ran
    split at ranOther <;> cases ranOther
    have part := agree key inside
    subst isKey
    rw [filter_append, filter_append]
    exact congrArg (· ++ _) part

/-- A grant is changed by its row id, and moves the cell of its account and table with it. -/
theorem settles_updateGrant {id privileges : Int}
    (agree : (updateGrant id privileges).AgreeOn choice tables other) :
    (updateGrant id privileges).Settles choice tables other := by
  have schema := agree .schema (.inl (.inl rfl))
  have rows := agree (.row id) (.inl (.inr rfl))
  have listed : ∀ row : GrantRow, row.id = id -> (row ∈ other.grants ↔ row ∈ tables.grants) := by
    intro row of
    have part := congrArg (row ∈ ·) rows
    simpa [cell, of] using part
  refine ⟨Choice.onRows_settled (present_of_schema schema).2.2.1 rfl, ?_, fun key inside => ?_⟩
  · simp only [touched]
    congr 1
    ext key
    refine exists_congr fun row => ?_
    exact ⟨fun ⟨inside, of, same⟩ => ⟨(listed row of).1 inside, of, same⟩,
      fun ⟨inside, of, same⟩ => ⟨(listed row of).2 inside, of, same⟩⟩
  · exact cell_onGrants_change schema (agree key inside)
      (fun rows account target => filter_map_of_kept fun row => by split <;> rfl)
      fun rows id => filter_map_of_kept fun row => by split <;> rfl

theorem settles_deleteGrant (agree : (deleteGrant account target).AgreeOn choice tables other) :
    (deleteGrant account target).Settles choice tables other := by
  have schema := agree .schema (.inl (.inl rfl))
  have rows := agree (.grant account target) (.inl (.inr rfl))
  refine ⟨Choice.onRows_settled (present_of_schema schema).2.2.1 rfl, ?_, fun key inside => ?_⟩
  · simp only [touched]
    congr 1
    ext key
    refine exists_congr fun row => ?_
    have part := congrArg (row ∈ ·) rows
    simp only [cell, mem_filter, decide_eq_true_eq, eq_iff_iff] at part
    tauto
  · exact cell_onGrants_change schema (agree key inside) (fun rows account target => filter_comm ..)
      fun rows id => filter_comm ..

theorem settles_deleteGrants (agree : (deleteGrants account).AgreeOn choice tables other) :
    (deleteGrants account).Settles choice tables other := by
  have schema := agree .schema (.inl (.inl rfl))
  have rows := fun target => agree (.grant account target) (.inl (.inr ⟨target, rfl⟩))
  refine ⟨Choice.onRows_settled (present_of_schema schema).2.2.1 rfl, ?_, fun key inside => ?_⟩
  · simp only [touched]
    congr 1
    ext key
    exact exists_grant_of_account rows
  · exact cell_onGrants_change schema (agree key inside) (fun rows account target => filter_comm ..)
      fun rows id => filter_comm ..

end Grants

/-- The cells a statement touches decide its answer, and what becomes of them. -/
theorem settles {command : Command} (agree : command.AgreeOn choice tables other) :
    command.Settles choice tables other := by
  cases command with
  | catalog => exact settles_catalog agree
  | random => exact ⟨rfl, rfl, agree⟩
  | createUserTable => exact settles_createUserTable agree
  | createUserIndex => exact settles_createUserIndex agree
  | createGrantTable => exact settles_createGrantTable agree
  | createGrantIndex => exact settles_createGrantIndex agree
  | insertUser row => exact settles_insertUser agree
  | selectUser name => exact settles_selectUser agree
  | selectUsers => exact settles_selectUsers agree
  | updateAuth name native sha2 => exact settles_updateAuth agree
  | updateGlobal name privileges => exact settles_updateGlobal agree
  | deleteUser name => exact settles_deleteUser agree
  | selectGrant account target => exact settles_selectGrant agree
  | selectGrantId account target => exact settles_selectGrantId agree
  | insertGrant account target privileges => exact settles_insertGrant agree
  | updateGrant id privileges => exact settles_updateGrant agree
  | deleteGrant account target => exact settles_deleteGrant agree
  | deleteGrants account => exact settles_deleteGrants agree

end Command

/-- The cells of the account tables, and the ones an engine statement touches. -/
def accountFootprint : Footprint runCommand where
  Key := AccountKey
  Content := AccountKey.Content
  cell := AccountTables.cell
  touched := Command.touched
  kept := AccountTables.cell_kept
  settled := Command.settles

end InlaySql.Server
