import InlaySql.Server.AccountStatements

/-!
# Account statements one after the other

What an account statement that runs alone and succeeds does to the account tables. The tables
stay in order: one account for each name, one grant for each account and table, no grant
without its account, and an account that can administer the others. A privilege that was
revoked is not held again before it is granted.
-/

namespace InlaySql.Server

open List Lib Sql Script

variable {tables after : AccountTables} {choice : Choice} {α β : Type}

/-! ## One engine statement -/

section Ends

variable {value : β}

/-- A script whose first engine statement ran ends as the rest does from there. -/
theorem ends_issue_bind {command : Command} {rest : command.Answer -> AccountScript β} :
    (issue command >>= rest).Ends runCommand tables value after ↔
      ∃ choice, (rest (runCommand command choice tables).1).Ends runCommand
        (runCommand command choice tables).2 value after :=
  Ends.ask_bind_iff

theorem ends_orFail {answer : Except MysqlError β} :
    (orFail answer).Ends runCommand tables value after ↔ answer = .ok value ∧ after = tables := by
  cases answer with
  | error error => simp [orFail, Ends.failed_iff]
  | ok found =>
    refine Ends.pure_iff.trans ⟨fun ⟨same, still⟩ => ⟨by rw [same], still⟩, fun ⟨same, still⟩ => ?_⟩
    exact ⟨(Except.ok.inj same).symm, still⟩

theorem ends_orFail_bind {answer : Except MysqlError α} {rest : α -> AccountScript β} :
    (orFail answer >>= rest).Ends runCommand tables value after ↔
      ∃ found, answer = .ok found ∧ (rest found).Ends runCommand tables value after := by
  constructor
  · intro ended
    obtain ⟨found, between, one, more⟩ := Ends.bind_iff.1 ended
    obtain ⟨answered, rfl⟩ := ends_orFail.1 one
    exact ⟨found, answered, more⟩
  · rintro ⟨found, answered, more⟩
    exact Ends.bind_iff.2 ⟨found, tables, ends_orFail.2 ⟨answered, rfl⟩, more⟩

end Ends

/-- A statement that succeeds found its table and stored what it changed. -/
theorem Choice.onRows_eq_ok {ρ : Type} {table : Option (List ρ)}
    {change : List ρ -> Option (α × List ρ)} {answer : α}
    (ran : (choice.onRows table change).1 = .ok answer) :
    ∃ rows, change (table.getD []) = some (answer, rows) ∧ table.isSome ∧
      (choice.onRows table change).2 = some rows := by
  unfold onRows at ran ⊢
  split at ran
  · next rows _ =>
    cases result : change rows with
    | none => simp [result] at ran
    | some both =>
      obtain ⟨found, rest⟩ := both
      obtain rfl : found = answer := by simpa [result] using ran
      exact ⟨rest, result, rfl, by simp [*]⟩
  · cases ran

namespace AccountTables

theorem onUsers_eq_ok {change : List UserRow -> Option (α × List UserRow)} {answer : α}
    (ran : (onUsers choice tables change).1 = .ok answer) :
    ∃ rows, change tables.users = some (answer, rows) ∧ tables.userTable.isSome ∧
      (onUsers choice tables change).2 = { tables with userTable := some rows } := by
  obtain ⟨rows, result, present, changed⟩ := Choice.onRows_eq_ok ran
  exact ⟨rows, result, present, by rw [onUsers, changed]⟩

theorem onGrants_eq_ok {change : List GrantRow -> Option (α × List GrantRow)} {answer : α}
    (ran : (onGrants choice tables change).1 = .ok answer) :
    ∃ rows, change tables.grants = some (answer, rows) ∧ tables.grantTable.isSome ∧
      (onGrants choice tables change).2 = { tables with grantTable := some rows } := by
  obtain ⟨rows, result, present, changed⟩ := Choice.onRows_eq_ok ran
  exact ⟨rows, result, present, by rw [onGrants, changed]⟩

theorem onSchema_eq_ok {change : Option AccountTables}
    (ran : (onSchema choice tables change).1 = .ok ()) :
    change = some (onSchema choice tables change).2 := by
  unfold onSchema at ran ⊢
  split at ran
  · next after _ _ => simp [*]
  · cases ran

/-- The tables with these users. -/
def withUsers (self : AccountTables) (rows : List UserRow) : AccountTables :=
  { self with userTable := some rows }

/-- The tables with these grants. -/
def withGrants (self : AccountTables) (rows : List GrantRow) : AccountTables :=
  { self with grantTable := some rows }

@[simp] theorem users_withUsers (rows : List UserRow) : (tables.withUsers rows).users = rows := rfl

theorem withUsers_self (present : tables.userTable.isSome = true) :
    tables.withUsers tables.users = tables := by
  obtain ⟨rows, stored⟩ := Option.isSome_iff_exists.1 present
  cases tables
  simp_all [withUsers, users]

theorem withGrants_self (present : tables.grantTable.isSome = true) :
    tables.withGrants tables.grants = tables := by
  obtain ⟨rows, stored⟩ := Option.isSome_iff_exists.1 present
  cases tables
  simp_all [withGrants, grants]

/-! ## Tables in order -/

/-- The store is complete and in order. -/
structure Intact (tables : AccountTables) : Prop where
  userTable : tables.userTable.isSome = true
  userIndex : tables.userIndex = true
  grantTable : tables.grantTable.isSome = true
  names : (tables.users.map (·.name)).Nodup
  oneGrant : (tables.grants.map fun row => (row.account, row.target)).Nodup
  ids : (tables.grants.map (·.id)).Nodup
  owned : ∀ row ∈ tables.grants, ∃ user ∈ tables.users, user.name = row.account
  administered : ∃ user ∈ tables.users, user.account.isSuperuser = true

namespace Intact

section

variable (intact : tables.Intact)

include intact

theorem eq_of_name {one other : UserRow} (listed : one ∈ tables.users)
    (listedOther : other ∈ tables.users) (same : one.name = other.name) : one = other :=
  inj_on_of_nodup_map intact.names listed listedOther same

section

variable {one other : GrantRow} (listed : one ∈ tables.grants) (listedOther : other ∈ tables.grants)

include listed listedOther

theorem eq_of_id (same : one.id = other.id) : one = other :=
  inj_on_of_nodup_map intact.ids listed listedOther same

theorem eq_of_target (account : one.account = other.account) (target : one.target = other.target) :
    one = other :=
  inj_on_of_nodup_map intact.oneGrant listed listedOther (Prod.ext account target)

end

/-- An account of a new name keeps the tables in order. -/
theorem append {row : UserRow} (free : ∀ user ∈ tables.users, user.name ≠ row.name) :
    (tables.withUsers (tables.users ++ [row])).Intact where
  userTable := rfl
  userIndex := intact.userIndex
  grantTable := intact.grantTable
  names := by
    simp only [users_withUsers, map_append, map_cons, map_nil]
    refine nodup_append.2 ⟨intact.names, nodup_singleton _, ?_⟩
    simpa using free
  oneGrant := intact.oneGrant
  ids := intact.ids
  owned grant listed := by
    obtain ⟨user, known, same⟩ := intact.owned grant listed
    exact ⟨user, mem_append_left _ known, same⟩
  administered := by
    obtain ⟨user, known, superuser⟩ := intact.administered
    exact ⟨user, mem_append_left _ known, superuser⟩

theorem map {change : UserRow -> UserRow} (named : ∀ user, (change user).name = user.name)
    (administered : ∃ user ∈ tables.users, (change user).account.isSuperuser = true) :
    (tables.withUsers (tables.users.map change)).Intact where
  userTable := rfl
  userIndex := intact.userIndex
  grantTable := intact.grantTable
  names := by
    have same : (·.name) ∘ change = (·.name) := funext named
    simpa [map_map, same] using intact.names
  oneGrant := intact.oneGrant
  ids := intact.ids
  owned grant listed := by
    obtain ⟨user, known, same⟩ := intact.owned grant listed
    exact ⟨change user, mem_map_of_mem known, (named user).trans same⟩
  administered := by
    obtain ⟨user, known, superuser⟩ := administered
    exact ⟨change user, mem_map_of_mem known, superuser⟩

/-- Grants may be replaced as long as each is the only one and has its account. -/
theorem withGrants {rows : List GrantRow}
    (oneGrant : (rows.map fun row => (row.account, row.target)).Nodup)
    (ids : (rows.map (·.id)).Nodup)
    (owned : ∀ row ∈ rows, ∃ user ∈ tables.users, user.name = row.account) :
    (tables.withGrants rows).Intact :=
  ⟨intact.userTable, intact.userIndex, rfl, intact.names, oneGrant, ids, owned, intact.administered⟩

theorem filterGrants (stays : GrantRow -> Bool) :
    (tables.withGrants (tables.grants.filter stays)).Intact :=
  intact.withGrants (intact.oneGrant.sublist (filter_sublist.map _))
    (intact.ids.sublist (filter_sublist.map _))
    fun row listed => intact.owned row (mem_filter.1 listed).1

theorem mapGrants {change : GrantRow -> GrantRow}
    (kept : ∀ row, (change row).id = row.id ∧ (change row).account = row.account ∧ (change
      row).target = row.target) :
    (tables.withGrants (tables.grants.map change)).Intact := by
  have targets : (fun row : GrantRow => (row.account, row.target)) ∘ change =
      fun row => (row.account, row.target) :=
    funext fun row => Prod.ext (kept row).2.1 (kept row).2.2
  have rowIds : GrantRow.id ∘ change = GrantRow.id := funext fun row => (kept row).1
  refine intact.withGrants ?_ ?_ fun row listed => ?_
  · rw [map_map, targets]
    exact intact.oneGrant
  · rw [map_map, rowIds]
    exact intact.ids
  · obtain ⟨before, known, rfl⟩ := mem_map.1 listed
    rw [(kept before).2.1]
    exact intact.owned before known

theorem appendGrant {row : GrantRow} (freeId : ∀ other ∈ tables.grants, other.id ≠ row.id)
    (free : ∀ other ∈ tables.grants, ¬(other.account = row.account ∧ other.target = row.target))
    (owned : ∃ user ∈ tables.users, user.name = row.account) :
    (tables.withGrants (tables.grants ++ [row])).Intact := by
  refine intact.withGrants ?_ ?_ fun other listed => ?_
  · simp only [map_append, map_cons, map_nil]
    refine nodup_append.2 ⟨intact.oneGrant, nodup_singleton _, ?_⟩
    simpa using free
  · simp only [map_append, map_cons, map_nil]
    refine nodup_append.2 ⟨intact.ids, nodup_singleton _, ?_⟩
    simpa using freeId
  · rcases mem_append.1 listed with known | new
    · exact intact.owned other known
    · obtain rfl := mem_singleton.1 new
      exact owned

/-- An account goes with its grants, as long as another can administer. -/
theorem drop {name : String}
    (administered : ∃ user ∈ tables.users, user.name ≠ name ∧ user.account.isSuperuser = true) :
    ((tables.withUsers (tables.users.filter (·.name ≠ name))).withGrants
      (tables.grants.filter (·.account ≠ name))).Intact where
  userTable := rfl
  userIndex := intact.userIndex
  grantTable := rfl
  names := intact.names.sublist (filter_sublist.map _)
  oneGrant := intact.oneGrant.sublist (filter_sublist.map _)
  ids := intact.ids.sublist (filter_sublist.map _)
  owned grant listed := by
    obtain ⟨known, other⟩ := mem_filter.1 listed
    obtain ⟨user, present, same⟩ := intact.owned grant known
    refine ⟨user, mem_filter.2 ⟨present, ?_⟩, same⟩
    simpa [same] using other
  administered := by
    obtain ⟨user, known, different, superuser⟩ := administered
    exact ⟨user, mem_filter.2 ⟨known, by simpa using different⟩, superuser⟩

end

end Intact

end AccountTables

/-! ## Reads -/

section Reads

variable {bootstrap : Bootstrap} {handle refreshed : Handle} {found : Option Account} {name : String}

/-- The row of a name. -/
def AccountTables.user? (self : AccountTables) (name : String) : Option UserRow :=
  (self.users.filter (·.name = name)).head?

theorem AccountTables.user?_eq_some {row : UserRow} (known : tables.user? name = some row) :
    row ∈ tables.users ∧ row.name = name := by
  simpa using mem_of_mem_head? known

section

variable (present : tables.userTable.isSome = true)

include present

theorem ends_storedAccount
    (ended : (storedAccount name).Ends runCommand tables (found, refreshed) after) :
    found = (tables.user? name).map UserRow.account ∧ refreshed = tables.handle ∧ after = tables := by
  obtain ⟨choice, ended⟩ := ends_issue_bind.1 ended
  cases ran : (tables.onUsers choice fun rows =>
      some (rows.filter (·.name = name), rows)).1 with
  | error error =>
    simp only [runCommand, ran, AccountTables.handle, present, ↓reduceIte] at ended
    exact (Ends.failed_iff.1 ended).elim
  | ok rows =>
    obtain ⟨stays, result, -, -⟩ := AccountTables.onUsers_eq_ok ran
    obtain ⟨rfl, -⟩ := Prod.mk.inj (Option.some.inj result)
    simp only [runCommand, ran] at ended
    obtain ⟨same, rfl⟩ := Ends.pure_iff.1 ended
    obtain ⟨rfl, rfl⟩ := Prod.mk.inj same
    exact ⟨rfl, rfl, rfl⟩

/-- What is known of an account is its row. -/
theorem ends_account (shown : handle.userTable = true)
    (ended : (account bootstrap handle name).Ends runCommand tables (found, refreshed) after) :
    found = (tables.user? name).map UserRow.account ∧ refreshed = tables.handle ∧ after = tables := by
  simp only [account, shown, ↓reduceIte] at ended
  exact ends_storedAccount present ended

end

theorem ends_tableGrant {table : String} {held : Privileges} (shown : handle.grantTable = true)
    (ended : (tableGrant handle name table).Ends runCommand tables held after) :
    held = (((tables.grants.filter fun row => row.account = name ∧ row.target = lower table).map
      (·.privileges)).head?.map Privileges.fromBits).getD .none ∧ after = tables := by
  simp only [tableGrant, shown, ↓reduceIte] at ended
  obtain ⟨choice, ended⟩ := ends_issue_bind.1 ended
  obtain ⟨rows, ran, ended⟩ := ends_orFail_bind.1 ended
  obtain ⟨stays, result, present, changed⟩ := AccountTables.onGrants_eq_ok ran
  obtain ⟨rfl, rfl⟩ := Prod.mk.inj (Option.some.inj result)
  obtain ⟨rfl, rfl⟩ := Ends.pure_iff.1 ended
  exact ⟨rfl, changed.trans (AccountTables.withGrants_self present)⟩

/-- The check passes only while another account can administer. -/
theorem ends_refuseIfLastSuperuser {operation : String} {value : Unit}
    (ended : (refuseIfLastSuperuser name operation).Ends runCommand tables value after) :
    (∃ user ∈ tables.users, user.name ≠ name ∧ user.account.isSuperuser = true) ∧ after = tables := by
  obtain ⟨choice, ended⟩ := ends_issue_bind.1 ended
  obtain ⟨rows, ran, ended⟩ := ends_orFail_bind.1 ended
  obtain ⟨stays, result, present, changed⟩ := AccountTables.onUsers_eq_ok ran
  obtain ⟨rfl, rfl⟩ := Prod.mk.inj (Option.some.inj result)
  dsimp only at ended
  split at ended
  · next others =>
    obtain ⟨-, rfl⟩ := Ends.pure_iff.1 ended
    obtain ⟨user, known⟩ := Multiset.card_pos_iff_exists_mem.1 others
    exact ⟨⟨user, by simpa using known⟩, changed.trans (AccountTables.withUsers_self present)⟩
  · exact (Ends.failed_iff.1 ended).elim

end Reads

/-! ## Writes -/

section Writes

variable {hashes : Hashes} {policy : PasswordPolicy} {name : String} {value : Unit}

theorem ends_verifiers {password : String} {plugin : Option String}
    {stored : Option String × Option String}
    (ended : (verifiers hashes policy password plugin).Ends runCommand tables stored after) :
    after = tables := by
  unfold verifiers at ended
  split at ended
  · obtain ⟨choice, ended⟩ := ends_issue_bind.1 ended
    exact (Ends.pure_iff.1 ended).2
  · split at ended
    · exact (Ends.pure_iff.1 ended).2
    · split at ended <;> exact (Ends.pure_iff.1 ended).2

variable {global : Privileges} {target : String}

/-- A created account has a new name and the privileges it was given. -/
theorem ends_insertAccount {user : NewUser} (indexed : tables.userIndex = true)
    (ended : (insertAccount hashes policy user global).Ends runCommand tables value after) :
    ∃ row : UserRow, row.name = user.name ∧ row.privileges = some global.bits ∧
      (∀ known ∈ tables.users, known.name ≠ row.name) ∧
      after = tables.withUsers (tables.users ++ [row]) := by
  obtain ⟨⟨native, sha2⟩, between, one, more⟩ := Ends.bind_iff.1 ended
  obtain rfl := ends_verifiers one
  obtain ⟨choice, more⟩ := ends_issue_bind.1 more
  obtain ⟨ran, rfl⟩ := ends_orFail.1 more
  obtain ⟨rows, result, present, changed⟩ := AccountTables.onUsers_eq_ok ran
  split at result
  · cases result
  · next free =>
    obtain ⟨-, rfl⟩ := Prod.mk.inj (Option.some.inj result)
    refine ⟨⟨user.name, native, sha2, some global.bits⟩, rfl, rfl, ?_, changed⟩
    simpa [indexed] using free

theorem ends_setPassword {user : NewUser}
    (ended : (setPassword hashes policy user).Ends runCommand tables value after) :
    ∃ native sha2, after = tables.withUsers (tables.users.map fun row =>
      if row.name = user.name then { row with nativeAuth := native, sha2Auth := sha2 } else row) := by
  obtain ⟨⟨native, sha2⟩, between, one, more⟩ := Ends.bind_iff.1 ended
  obtain rfl := ends_verifiers one
  obtain ⟨choice, more⟩ := ends_issue_bind.1 more
  obtain ⟨ran, rfl⟩ := ends_orFail.1 more
  obtain ⟨rows, result, present, changed⟩ := AccountTables.onUsers_eq_ok ran
  obtain ⟨-, rfl⟩ := Prod.mk.inj (Option.some.inj result)
  exact ⟨native, sha2, changed⟩

theorem ends_setGlobal (ended : (setGlobal name global).Ends runCommand tables value after) :
    after = tables.withUsers (tables.users.map fun row =>
      if row.name = name then { row with privileges := some global.bits } else row) := by
  obtain ⟨choice, ended⟩ := ends_issue_bind.1 ended
  obtain ⟨ran, rfl⟩ := ends_orFail.1 ended
  obtain ⟨rows, result, present, changed⟩ := AccountTables.onUsers_eq_ok ran
  obtain ⟨-, rfl⟩ := Prod.mk.inj (Option.some.inj result)
  exact changed

theorem ends_deleteUser (ended : (deleteUser name).Ends runCommand tables value after) :
    after = tables.withUsers (tables.users.filter (·.name ≠ name)) := by
  obtain ⟨choice, ended⟩ := ends_issue_bind.1 ended
  obtain ⟨ran, rfl⟩ := ends_orFail.1 ended
  obtain ⟨rows, result, present, changed⟩ := AccountTables.onUsers_eq_ok ran
  obtain ⟨-, rfl⟩ := Prod.mk.inj (Option.some.inj result)
  exact changed

theorem ends_deleteGrants (ended : (deleteGrants name).Ends runCommand tables value after) :
    after = tables.withGrants (tables.grants.filter (·.account ≠ name)) := by
  obtain ⟨choice, ended⟩ := ends_issue_bind.1 ended
  obtain ⟨ran, rfl⟩ := ends_orFail.1 ended
  obtain ⟨rows, result, present, changed⟩ := AccountTables.onGrants_eq_ok ran
  obtain ⟨-, rfl⟩ := Prod.mk.inj (Option.some.inj result)
  exact changed

theorem ends_insertGrant {privileges : Int}
    (ended : (do orFail (<- issue (.insertGrant name target privileges)) : AccountScript Unit).Ends
      runCommand tables value after) :
    ∃ id, (∀ row ∈ tables.grants, row.id ≠ id) ∧
      after = tables.withGrants (tables.grants ++ [⟨id, name, target, privileges⟩]) := by
  obtain ⟨choice, ended⟩ := ends_issue_bind.1 ended
  obtain ⟨ran, rfl⟩ := ends_orFail.1 ended
  obtain ⟨rows, result, present, changed⟩ := AccountTables.onGrants_eq_ok ran
  split at result
  · cases result
  · next free =>
    obtain ⟨-, rfl⟩ := Prod.mk.inj (Option.some.inj result)
    exact ⟨choice.rowId, by simpa using free, changed⟩

theorem ends_updateGrant {id privileges : Int}
    (ended : (do orFail (<- issue (.updateGrant id privileges)) : AccountScript Unit).Ends
      runCommand tables value after) :
    after = tables.withGrants
      (tables.grants.map fun row => if row.id = id then { row with privileges } else row) := by
  obtain ⟨choice, ended⟩ := ends_issue_bind.1 ended
  obtain ⟨ran, rfl⟩ := ends_orFail.1 ended
  obtain ⟨rows, result, present, changed⟩ := AccountTables.onGrants_eq_ok ran
  obtain ⟨-, rfl⟩ := Prod.mk.inj (Option.some.inj result)
  exact changed

theorem ends_deleteGrant
    (ended : (do orFail (<- issue (.deleteGrant name target)) : AccountScript Unit).Ends
      runCommand tables value after) :
    after = tables.withGrants
      (tables.grants.filter fun row => ¬(row.account = name ∧ row.target = target)) := by
  obtain ⟨choice, ended⟩ := ends_issue_bind.1 ended
  obtain ⟨ran, rfl⟩ := ends_orFail.1 ended
  obtain ⟨rows, result, present, changed⟩ := AccountTables.onGrants_eq_ok ran
  obtain ⟨-, rfl⟩ := Prod.mk.inj (Option.some.inj result)
  exact changed

/-- The grant of an account on a table is now this one, and the others are as they were. -/
structure AccountTables.SetsGrant (tables after : AccountTables) (name target : String)
    (privileges : Privileges) : Prop where
  intact : after.Intact
  users : after.users = tables.users
  grants : ∀ row ∈ after.grants,
    row ∈ tables.grants ∧ ¬(row.account = name ∧ row.target = target) ∨
      row.account = name ∧ row.target = target ∧ row.privileges = privileges.bits

/-- Afterwards the account holds on the table what was set, and the other grants stand. -/
theorem ends_setTableGrant {privileges : Privileges} (intact : tables.Intact)
    (owner : ∃ user ∈ tables.users, user.name = name)
    (ended : (setTableGrant name target privileges).Ends runCommand tables value after) :
    tables.SetsGrant after name (lower target) privileges := by
  obtain ⟨choice, ended⟩ := ends_issue_bind.1 ended
  obtain ⟨existing, ran, ended⟩ := ends_orFail_bind.1 ended
  obtain ⟨stays, result, present, changed⟩ := AccountTables.onGrants_eq_ok ran
  obtain ⟨rfl, rfl⟩ := Prod.mk.inj (Option.some.inj result)
  have still : (runCommand (.selectGrantId name (lower target)) choice tables).2 = tables :=
    changed.trans (AccountTables.withGrants_self intact.grantTable)
  rw [still] at ended
  cases chosen : ((tables.grants.filter fun row =>
      row.account = name ∧ row.target = lower target).map (·.id)).head? with
  | none =>
    have free : ∀ row ∈ tables.grants, ¬(row.account = name ∧ row.target = lower target) := by
      simpa using chosen
    cases empty : privileges.isEmpty with
    | true =>
      simp only [chosen, empty] at ended
      obtain ⟨-, rfl⟩ := Ends.pure_iff.1 ended
      exact ⟨intact, rfl, fun row listed => .inl ⟨listed, free row listed⟩⟩
    | false =>
      simp only [chosen, empty] at ended
      obtain ⟨id, freeId, rfl⟩ := ends_insertGrant ended
      refine ⟨intact.appendGrant freeId free owner, rfl, fun row listed => ?_⟩
      rcases mem_append.1 listed with known | new
      · exact .inl ⟨known, free row known⟩
      · obtain rfl := mem_singleton.1 new
        exact .inr ⟨rfl, rfl, rfl⟩
  | some id =>
    obtain ⟨held, known, rfl⟩ := mem_map.1 (mem_of_mem_head? chosen)
    obtain ⟨listedHeld, matched⟩ := mem_filter.1 known
    obtain ⟨account, table⟩ := of_decide_eq_true matched
    cases empty : privileges.isEmpty with
    | true =>
      simp only [chosen, empty] at ended
      obtain rfl := ends_deleteGrant ended
      refine ⟨intact.filterGrants _, rfl, fun row listed => .inl ?_⟩
      obtain ⟨known, other⟩ := mem_filter.1 listed
      exact ⟨known, of_decide_eq_true other⟩
    | false =>
      simp only [chosen, empty] at ended
      obtain rfl := ends_updateGrant ended
      refine ⟨intact.mapGrants fun row => ?_, rfl, fun row listed => ?_⟩
      · split <;> exact ⟨rfl, rfl, rfl⟩
      · obtain ⟨before, known, rfl⟩ := mem_map.1 listed
        by_cases same : before.id = held.id
        · obtain rfl := intact.eq_of_id known listedHeld same
          simp [account, table]
        · rw [if_neg same]
          refine .inl ⟨known, fun ⟨ofAccount, onTable⟩ => same ?_⟩
          rw [intact.eq_of_target known listedHeld (ofAccount.trans account.symm)
            (onTable.trans table.symm)]

end Writes

end InlaySql.Server
