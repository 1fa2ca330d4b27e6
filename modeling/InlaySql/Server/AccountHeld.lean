import InlaySql.Server.AccountSequence

/-!
# What the accounts hold

A privilege is held at a place: on everything, or on one table. Each account of a list is one
step of its statement. A step keeps the tables in order, adds to no place more than the
statement grants there, and what a `REVOKE` takes is gone.
-/

namespace InlaySql.Server

open List Option Lib Sql Script

/-! ## Masks -/

namespace Privileges

variable {one other taken : BitVec 32}

theorem mask_fromBits_bits (self : Privileges) : (fromBits self.bits).mask = self.mask &&& 255 := by
  simp [fromBits, bits, all, grantOption]

theorem or_and_eq_zero (left : one &&& taken = 0) (right : other &&& taken = 0) :
    (one ||| other) &&& taken = 0 := by
  rw [BitVec.and_or_distrib_right, left, right]
  simp

theorem and_and_eq_zero (left : one &&& taken = 0) : one &&& other &&& taken = 0 := by
  rw [BitVec.and_assoc, BitVec.and_comm other, <- BitVec.and_assoc, left]
  simp

theorem without_and_eq_zero (mask : BitVec 32) : mask &&& ~~~taken &&& taken = 0 := by
  rw [BitVec.and_assoc, BitVec.and_comm (~~~taken), BitVec.and_not_self]
  simp

theorem or_and_eq_of_and_eq (full : one &&& taken = taken) : (one ||| other) &&& taken = taken := by
  ext index small
  have bit := congrArg (·[index]) full
  simp only [BitVec.getElem_and, BitVec.getElem_or] at bit ⊢
  cases h : taken[index] <;> simp_all

end Privileges

namespace Account

variable {self : Account}

theorem isSuperuser_iff : self.isSuperuser = true ↔ self.global.mask &&& 255 = 255 := by
  simp [isSuperuser, Privileges.contains, Privileges.withPrivileges, Privileges.all,
    Privileges.grantOption]

end Account

/-! ## Places -/

/-- Where an account holds privileges. -/
inductive Place where
  | global (name : String)
  | table (name target : String)
  deriving DecidableEq

def Place.name : Place -> String
  | global name => name
  | table name _ => name

/-- None of these privileges is held at the place. -/
def AccountTables.Lacks (self : AccountTables) (taken : BitVec 32) : Place -> Prop
  | .global name => ∀ user ∈ self.users, user.name = name ->
      user.account.global.mask &&& taken = 0
  | .table name target => ∀ row ∈ self.grants, row.account = name -> row.target = target ->
      (Privileges.fromBits row.privileges).mask &&& taken = 0

/-- The place a scope stands for. -/
def Scope.place (name : String) : Scope -> Place
  | global => .global name
  | table target => .table name (lower target)

namespace AclStatement

/-- What a statement grants at a place. -/
def given (place : Place) : AclStatement -> BitVec 32
  | grant privileges scope users grantOption =>
    if place.name ∈ users ∧ scope.place place.name = place then
      if scope = .global ∧ grantOption then privileges.mask ||| Privileges.grantOption.mask
      else privileges.mask
    else 0
  | _ => 0

/-- What a `REVOKE` takes away at a place; without a scope, everything. -/
def taken (place : Place) : AclStatement -> BitVec 32
  | revoke privileges scope users =>
    if place.name ∈ users ∧ ∀ limited ∈ scope, limited.place place.name = place then
      if scope = none then BitVec.allOnes 32 else privileges.mask
    else 0
  | _ => 0

end AclStatement

/-! ## Steps -/

/-- The tables are in order after the step, and at no place more is held than before and what
was given there. -/
structure AccountTables.Adds (tables after : AccountTables) (given : Place → BitVec 32) : Prop where
  intact : after.Intact
  lacks : ∀ {place taken}, given place &&& taken = 0 -> tables.Lacks taken place ->
    after.Lacks taken place

namespace AccountTables.Adds

variable {tables between after : AccountTables} {given : Place -> BitVec 32}

theorem refl (intact : tables.Intact) : tables.Adds tables given := ⟨intact, fun _ lacks => lacks⟩

theorem trans (first : tables.Adds between given) (rest : between.Adds after given) :
    tables.Adds after given :=
  ⟨rest.intact, fun apart lacks => rest.lacks apart (first.lacks apart lacks)⟩

end AccountTables.Adds

section Steps

variable {hashes : Hashes} {bootstrap : Bootstrap} {policy : PasswordPolicy} {handle : Handle}
  {name : String} {tables after : AccountTables} {value : Unit} {given : Place -> BitVec 32}

theorem AccountTables.Intact.eq_user? {row user : UserRow} (intact : tables.Intact)
    (known : tables.user? name = some row) (listed : user ∈ tables.users) (named : user.name = name) :
    user = row := by
  obtain ⟨present, same⟩ := AccountTables.user?_eq_some known
  exact intact.eq_of_name listed present (named.trans same.symm)

theorem createUser_adds {user : NewUser} {ifNotExists : Bool} (intact : tables.Intact)
    (shown : handle.userTable = true)
    (ended : (createUser hashes bootstrap policy handle ifNotExists user).Ends runCommand tables value
      after) : tables.Adds after given := by
  obtain ⟨⟨found, refreshed⟩, between, looked, more⟩ := Ends.bind_iff.1 ended
  obtain ⟨rfl, rfl, rfl⟩ := ends_account intact.userTable shown looked
  cases known : between.user? user.name with
  | some row =>
    simp only [known, map_some] at more
    split at more
    · obtain ⟨-, rfl⟩ := Ends.pure_iff.1 more
      exact .refl intact
    · exact (Ends.failed_iff.1 more).elim
  | none =>
    simp only [known, map_none] at more
    obtain ⟨row, named, nothing, free, rfl⟩ := ends_insertAccount intact.userIndex more
    refine ⟨intact.append free, fun {place taken} _ lacks => ?_⟩
    cases place with
    | table account target => exact lacks
    | global account =>
      intro other listed same
      rcases mem_append.1 listed with old | new
      · exact lacks other old same
      · obtain rfl := mem_singleton.1 new
        simp [UserRow.account, nothing, Privileges.mask_fromBits_bits, Privileges.none]

variable {ifExists : Bool} {privileges : Privileges}

theorem dropUser_adds (intact : tables.Intact) (shown : handle.userTable = true)
    (ended : (dropUser bootstrap handle ifExists name).Ends runCommand tables value after) :
    tables.Adds after given := by
  obtain ⟨⟨found, refreshed⟩, between, looked, more⟩ := Ends.bind_iff.1 ended
  obtain ⟨rfl, rfl, rfl⟩ := ends_account intact.userTable shown looked
  cases known : between.user? name with
  | none =>
    simp only [known, map_none] at more
    split at more
    · obtain ⟨-, rfl⟩ := Ends.pure_iff.1 more
      exact .refl intact
    · exact (Ends.failed_iff.1 more).elim
  | some row =>
    simp only [known, map_some] at more
    obtain ⟨_, checked, refuses, drops⟩ := Ends.bind_iff.1 more
    obtain ⟨administered, rfl⟩ := ends_refuseIfLastSuperuser refuses
    obtain ⟨_, dropped, first, second⟩ := Ends.bind_iff.1 drops
    obtain rfl := ends_deleteUser first
    obtain rfl := ends_deleteGrants second
    refine ⟨intact.drop administered, fun {place taken} _ lacks => ?_⟩
    cases place with
    | global account =>
      exact fun user listed => lacks user (mem_filter.1 listed).1
    | table account target =>
      exact fun row listed => lacks row (mem_filter.1 listed).1

theorem alterUser_adds {user : NewUser} (intact : tables.Intact) (shown : handle.userTable = true)
    (ended : (alterUser hashes bootstrap policy handle ifExists user).Ends runCommand tables value
      after) : tables.Adds after given := by
  obtain ⟨⟨found, refreshed⟩, between, looked, more⟩ := Ends.bind_iff.1 ended
  obtain ⟨rfl, rfl, rfl⟩ := ends_account intact.userTable shown looked
  cases known : between.user? user.name with
  | none =>
    simp only [known, map_none] at more
    split at more
    · obtain ⟨-, rfl⟩ := Ends.pure_iff.1 more
      exact .refl intact
    · exact (Ends.failed_iff.1 more).elim
  | some row =>
    simp only [known, map_some] at more
    obtain ⟨native, sha2, rfl⟩ := ends_setPassword more
    have kept : ∀ row : UserRow, ∀ changed, changed = (if row.name = user.name then
        { row with nativeAuth := native, sha2Auth := sha2 } else row) ->
        changed.name = row.name ∧ changed.account.global = row.account.global := by
      rintro row changed rfl
      split <;> exact ⟨rfl, rfl⟩
    refine ⟨intact.map (fun row => (kept row _ rfl).1) ?_, fun {place taken} _ lacks => ?_⟩
    · obtain ⟨administrator, listed, superuser⟩ := intact.administered
      refine ⟨administrator, listed, ?_⟩
      rw [Account.isSuperuser_iff] at superuser ⊢
      rwa [(kept administrator _ rfl).2]
    · cases place with
      | table account target => exact lacks
      | global account =>
        intro other listed same
        obtain ⟨before, known, rfl⟩ := List.mem_map.1 listed
        rw [(kept before _ rfl).2]
        exact lacks before known ((kept before _ rfl).1.symm.trans same)

theorem setGlobal_adds {global : Privileges} {row : UserRow} (intact : tables.Intact)
    (known : tables.user? name = some row)
    (administered : row.account.isSuperuser = true -> global.mask &&& 255 = 255 ∨
      ∃ user ∈ tables.users, user.name ≠ name ∧ user.account.isSuperuser = true)
    (within : ∀ taken, given (.global name) &&& taken = 0 → row.account.global.mask &&& taken = 0 →
      global.mask &&& taken = 0)
    (ended : (setGlobal name global).Ends runCommand tables value after) :
    tables.Adds after given ∧
      ∀ user ∈ after.users, user.name = name -> user.account.global.mask = global.mask &&& 255 := by
  obtain rfl := ends_setGlobal ended
  have set : ∀ user : UserRow, user.name = name -> (if user.name = name then
      { user with privileges := some global.bits } else user).account.global.mask =
        global.mask &&& 255 := by
    intro user named
    simp [named, UserRow.account, Privileges.mask_fromBits_bits]
  have named : ∀ user : UserRow, (if user.name = name then
      { user with privileges := some global.bits } else user).name = user.name := by
    intro user
    split <;> rfl
  refine ⟨⟨intact.map named ?_, fun {place taken} apart lacks => ?_⟩, fun user listed same => ?_⟩
  · obtain ⟨user, listed, superuser⟩ := intact.administered
    by_cases same : user.name = name
    · obtain rfl := intact.eq_user? known listed same
      rcases administered superuser with full | ⟨other, listedOther, different, superuserOther⟩
      · refine ⟨user, listed, Account.isSuperuser_iff.2 ?_⟩
        rw [set user same, full]
        rfl
      · exact ⟨other, listedOther, by rwa [if_neg different]⟩
    · exact ⟨user, listed, by rwa [if_neg same]⟩
  · cases place with
    | table account target => exact lacks
    | global account =>
      intro other listed same
      obtain ⟨before, present, rfl⟩ := List.mem_map.1 listed
      rw [named] at same
      by_cases mine : before.name = name
      · obtain rfl : name = account := mine.symm.trans same
        obtain rfl := intact.eq_user? known present mine
        rw [set before mine]
        exact Privileges.and_and_eq_zero (within taken apart (lacks before present mine))
      · rw [if_neg mine]
        exact lacks before present same
  · obtain ⟨before, present, rfl⟩ := List.mem_map.1 listed
    exact set before ((named before).symm.trans same)

theorem setTableGrant_adds {target : String} {privileges : Privileges} (intact : tables.Intact)
    (owner : ∃ user ∈ tables.users, user.name = name)
    (within : ∀ taken, given (.table name (lower target)) &&& taken = 0 ->
      tables.Lacks taken (.table name (lower target)) -> privileges.mask &&& taken = 0)
    (ended : (setTableGrant name target privileges).Ends runCommand tables value after) :
    tables.Adds after given ∧ ∀ row ∈ after.grants, row.account = name → row.target = lower target →
      (Privileges.fromBits row.privileges).mask = privileges.mask &&& 255 := by
  obtain ⟨intactAfter, users, grants⟩ := ends_setTableGrant intact owner ended
  refine ⟨⟨intactAfter, fun {place taken} apart lacks => ?_⟩, fun row listed account table => ?_⟩
  · cases place with
    | global account => rwa [AccountTables.Lacks, users]
    | table account other =>
      intro row listed ofAccount onTable
      rcases grants row listed with ⟨before, -⟩ | ⟨sameAccount, sameTable, set⟩
      · exact lacks row before ofAccount onTable
      · obtain rfl : name = account := sameAccount.symm.trans ofAccount
        obtain rfl : lower target = other := sameTable.symm.trans onTable
        rw [set, Privileges.mask_fromBits_bits]
        exact Privileges.and_and_eq_zero (within taken apart lacks)
  · rcases grants row listed with ⟨-, other⟩ | ⟨-, -, set⟩
    · exact absurd ⟨account, table⟩ other
    · rw [set, Privileges.mask_fromBits_bits]

theorem lacks_tableGrant {table : String} {held : Privileges} {taken : BitVec 32}
    (shown : handle.grantTable = true)
    (ended : (tableGrant handle name table).Ends runCommand tables held after)
    (lacks : tables.Lacks taken (.table name (lower table))) : held.mask &&& taken = 0 := by
  obtain ⟨rfl, -⟩ := ends_tableGrant shown ended
  cases chosen : ((tables.grants.filter fun row => row.account = name ∧
      row.target = lower table).map (·.privileges)).head? with
  | none => simp [Privileges.none]
  | some bits =>
    obtain ⟨row, known, rfl⟩ := List.mem_map.1 (mem_of_mem_head? chosen)
    obtain ⟨listed, matched⟩ := mem_filter.1 known
    obtain ⟨account, target⟩ := of_decide_eq_true matched
    exact lacks row listed account target

theorem grantTo_adds {session : String} {scope : Scope} {grantOption : Bool} {users : List String}
    (intact : tables.Intact) (shown : handle.userTable = true) (named : name ∈ users)
    (ended : (grantTo bootstrap session handle privileges scope grantOption name).Ends runCommand
      tables value after) :
    tables.Adds after fun place =>
      AclStatement.given place (.grant privileges scope users grantOption) := by
  obtain ⟨⟨found, refreshed⟩, between, looked, more⟩ := Ends.bind_iff.1 ended
  obtain ⟨rfl, rfl, rfl⟩ := ends_account intact.userTable shown looked
  cases known : between.user? name with
  | none =>
    simp only [known, map_none] at more
    exact (Ends.failed_iff.1 more).elim
  | some row =>
    simp only [known, map_some] at more
    cases scope with
    | global =>
      refine (setGlobal_adds intact known (fun superuser => .inl ?_) (fun taken apart lacks => ?_)
        more).1
      · have held := @Privileges.or_and_eq_of_and_eq _ privileges.mask _
          (Account.isSuperuser_iff.1 superuser)
        cases grantOption with
        | false => exact held
        | true => exact Privileges.or_and_eq_of_and_eq held
      · cases grantOption with
        | false =>
          have given : privileges.mask &&& taken = 0 := by
            simpa [AclStatement.given, named, Scope.place, Place.name] using apart
          exact Privileges.or_and_eq_zero lacks given
        | true =>
          have given : (privileges.mask ||| Privileges.grantOption.mask) &&& taken = 0 := by
            simpa [AclStatement.given, named, Scope.place, Place.name] using apart
          simpa [Privileges.withPrivileges, BitVec.or_assoc] using
            Privileges.or_and_eq_zero lacks given
    | table table =>
      cases reserved : isReserved table with
      | none =>
        simp only [reserved] at more
        exact (Ends.failed_iff.1 more).elim
      | some denied =>
        cases denied with
        | true =>
          simp only [reserved] at more
          exact (Ends.failed_iff.1 more).elim
        | false =>
          simp only [reserved] at more
          obtain ⟨held, read, reads, sets⟩ := Ends.bind_iff.1 more
          have grantTable : between.handle.grantTable = true := intact.grantTable
          obtain ⟨-, rfl⟩ := ends_tableGrant grantTable reads
          obtain ⟨present, same⟩ := AccountTables.user?_eq_some known
          refine (setTableGrant_adds intact ⟨row, present, same⟩
            (fun taken apart lacks => ?_) sets).1
          refine Privileges.or_and_eq_zero (lacks_tableGrant grantTable reads lacks) ?_
          simpa [AclStatement.given, named, Scope.place, Place.name] using apart

theorem ends_checkRevoke {scope : Option Scope} {row : UserRow}
    (ended : (checkRevoke row.account privileges scope name).Ends runCommand tables value after) :
    after = tables ∧ (clearsSuperuser row.account privileges scope = true ->
      row.account.isSuperuser = true ->
      ∃ user ∈ tables.users, user.name ≠ name ∧ user.account.isSuperuser = true) := by
  unfold checkRevoke at ended
  split at ended
  · obtain ⟨administered, rfl⟩ := ends_refuseIfLastSuperuser ended
    exact ⟨rfl, fun _ _ => administered⟩
  · next unchecked =>
    exact ⟨(Ends.pure_iff.1 ended).2, fun clears superuser => by simp [clears, superuser] at unchecked⟩

theorem revokeFrom_adds {privileges : Privileges} {scope : Option Scope} (intact : tables.Intact)
    (shown : handle.userTable = true)
    (ended : (revokeFrom bootstrap handle privileges scope name).Ends runCommand tables value
      after) :
    tables.Adds after given ∧ ∀ place : Place, place.name = name ->
      after.Lacks (AclStatement.taken place (.revoke privileges scope [name])) place := by
  obtain ⟨⟨found, refreshed⟩, between, looked, more⟩ := Ends.bind_iff.1 ended
  obtain ⟨rfl, rfl, rfl⟩ := ends_account intact.userTable shown looked
  cases known : between.user? name with
  | none =>
    simp only [known, map_none] at more
    exact (Ends.failed_iff.1 more).elim
  | some row =>
    simp only [known, map_some] at more
    obtain ⟨_, checked, checks, writes⟩ := Ends.bind_iff.1 more
    obtain ⟨rfl, administered⟩ := ends_checkRevoke checks
    match scope with
    | none =>
      obtain ⟨_, demoted, sets, deletes⟩ := Ends.bind_iff.1 writes
      obtain ⟨adds, holds⟩ := @setGlobal_adds name _ _ _ given _ row intact known
        (fun superuser => .inr (administered rfl superuser))
        (fun taken _ _ => by simp [Privileges.none]) sets
      obtain rfl := ends_deleteGrants deletes
      refine ⟨⟨adds.intact.filterGrants _, fun {place taken} apart lacks => ?_⟩,
        fun place named => ?_⟩
      · cases place with
        | global account => exact adds.lacks apart lacks
        | table account target =>
          exact fun row listed => adds.lacks apart lacks row (mem_filter.1 listed).1
      · cases place with
        | global account =>
          obtain rfl : account = name := named
          intro user listed same
          rw [holds user listed same]
          simp [Privileges.none]
        | table account target =>
          intro row listed same
          have other := (mem_filter.1 listed).2
          exact absurd (same.trans named) (by simpa using other)
    | some .global =>
      have still : row.account.isSuperuser = true ->
          (row.account.global.without privileges).mask &&& 255 = 255 ∨
            ∃ user ∈ checked.users, user.name ≠ name ∧ user.account.isSuperuser = true := by
        intro superuser
        cases clears : clearsSuperuser row.account privileges (some .global) with
        | true => exact .inr (administered clears superuser)
        | false =>
          left
          simpa [clearsSuperuser, Privileges.superuser, Privileges.contains,
            Privileges.withPrivileges, Privileges.all, Privileges.grantOption] using clears
      obtain ⟨adds, holds⟩ := @setGlobal_adds name _ _ _ given _ row intact known still
        (fun taken _ lacks => Privileges.and_and_eq_zero lacks) writes
      refine ⟨adds, fun place named => ?_⟩
      cases place with
      | table account target =>
        intro row listed _ _
        simp [AclStatement.taken, Scope.place, Place.name]
      | global account =>
        obtain rfl : account = name := named
        intro user listed same
        rw [holds user listed same]
        simp only [AclStatement.taken, Scope.place, Place.name, mem_singleton,
          Option.mem_def, Option.some.injEq, forall_eq', and_self, ↓reduceIte, reduceCtorEq]
        refine Privileges.and_and_eq_zero ?_
        exact Privileges.without_and_eq_zero _
    | some (.table table) =>
      obtain ⟨held, read, reads, sets⟩ := Ends.bind_iff.1 writes
      have grantTable : checked.handle.grantTable = true := intact.grantTable
      obtain ⟨-, rfl⟩ := ends_tableGrant grantTable reads
      obtain ⟨present, same⟩ := AccountTables.user?_eq_some known
      obtain ⟨adds, holds⟩ := @setTableGrant_adds name _ _ _ given _ _ intact ⟨row, present, same⟩
        (fun taken _ lacks =>
          Privileges.and_and_eq_zero (lacks_tableGrant grantTable reads lacks)) sets
      refine ⟨adds, fun place named => ?_⟩
      cases place with
      | global account =>
        intro user listed _
        simp [AclStatement.taken, Scope.place, Place.name]
      | table account target =>
        obtain rfl : account = name := named
        intro row listed ofAccount onTable
        by_cases here : target = lower table
        · subst here
          rw [holds row listed ofAccount onTable]
          simp only [AclStatement.taken, Scope.place, Place.name, mem_singleton,
            Option.mem_def, Option.some.injEq, forall_eq', and_self, ↓reduceIte, reduceCtorEq]
          refine Privileges.and_and_eq_zero ?_
          exact Privileges.without_and_eq_zero _
        · have elsewhere : lower table ≠ target := fun same => here same.symm
          simp [AclStatement.taken, Scope.place, Place.name, elsewhere]

end Steps

/-! ## Statements -/

section Statements

variable {hashes : Hashes} {bootstrap : Bootstrap} {policy : PasswordPolicy} {handle : Handle}
  {session : String} {tables after : AccountTables} {value : Unit}

theorem ends_ensureStore (started : tables = .absent ∨ tables.Intact)
    (ended : (ensureStore bootstrap).Ends runCommand tables handle after) :
    handle.userTable = true ∧ after.Intact ∧ (tables.Intact -> after = tables) := by
  obtain ⟨seen, ended⟩ := ends_issue_bind.1 ended
  rcases started with rfl | intact
  · have unseen : (runCommand .catalog seen .absent).1.userTable = false := Bool.and_false _
    simp only [unseen, Bool.false_eq_true, ↓reduceIte] at ended
    obtain ⟨choice, ended⟩ := ends_issue_bind.1 ended
    obtain ⟨_, ran, ended⟩ := ends_orFail_bind.1 ended
    have users : (runCommand .createUserTable choice (runCommand .catalog seen .absent).2).2 =
        ⟨some [], false, none, false⟩ := (Option.some.inj (AccountTables.onSchema_eq_ok ran)).symm
    rw [users] at ended
    obtain ⟨choice, ended⟩ := ends_issue_bind.1 ended
    obtain ⟨_, ran, ended⟩ := ends_orFail_bind.1 ended
    have index : (runCommand .createUserIndex choice ⟨some [], false, none, false⟩).2 =
        ⟨some [], true, none, false⟩ := (Option.some.inj (AccountTables.onSchema_eq_ok ran)).symm
    rw [index] at ended
    obtain ⟨choice, ended⟩ := ends_issue_bind.1 ended
    obtain ⟨_, ran, ended⟩ := ends_orFail_bind.1 ended
    have grants : (runCommand .createGrantTable choice ⟨some [], true, none, false⟩).2 =
        ⟨some [], true, some [], false⟩ := (Option.some.inj (AccountTables.onSchema_eq_ok ran)).symm
    rw [grants] at ended
    obtain ⟨choice, ended⟩ := ends_issue_bind.1 ended
    obtain ⟨_, ran, ended⟩ := ends_orFail_bind.1 ended
    have all : (runCommand .createGrantIndex choice ⟨some [], true, some [], false⟩).2 =
        ⟨some [], true, some [], true⟩ := (Option.some.inj (AccountTables.onSchema_eq_ok ran)).symm
    rw [all] at ended
    obtain ⟨choice, ended⟩ := ends_issue_bind.1 ended
    obtain ⟨_, ran, ended⟩ := ends_orFail_bind.1 ended
    obtain ⟨rows, result, -, seeded⟩ := AccountTables.onUsers_eq_ok ran
    obtain ⟨rfl, rfl⟩ := Ends.pure_iff.1 ended
    obtain rfl : [_] = rows := by simpa [AccountTables.users] using result
    refine ⟨rfl, ?_, fun intact => by cases intact.userTable⟩
    refine (congrArg AccountTables.Intact seeded).mpr ?_
    exact ⟨rfl, rfl, rfl, by simp [AccountTables.users], by simp [AccountTables.grants],
      by simp [AccountTables.grants], by simp [AccountTables.grants], _, mem_singleton_self _,
      by simp [Account.isSuperuser_iff, UserRow.account, Privileges.mask_fromBits_bits,
        Bootstrap.account, Privileges.withPrivileges, Privileges.all, Privileges.grantOption]⟩
  · cases shown : (runCommand .catalog seen tables).1.userTable with
    | true =>
      simp only [shown, ↓reduceIte] at ended
      obtain ⟨rfl, rfl⟩ := Ends.pure_iff.1 ended
      exact ⟨shown, intact, fun _ => rfl⟩
    | false =>
      simp only [shown, Bool.false_eq_true, ↓reduceIte] at ended
      obtain ⟨choice, ended⟩ := ends_issue_bind.1 ended
      obtain ⟨_, ran, -⟩ := ends_orFail_bind.1 ended
      have created := AccountTables.onSchema_eq_ok ran
      simp [runCommand, intact.userTable] at created

theorem forM_adds {γ : Type} {items : List γ} {body : γ -> AccountScript Unit}
    {given : Place -> BitVec 32} (intact : tables.Intact)
    (adds : ∀ item ∈ items, ∀ tables after value, tables.Intact ->
      (body item).Ends runCommand tables value after -> tables.Adds after given)
    (ended : (items.forM body).Ends runCommand tables value after) : tables.Adds after given :=
  Ends.forM (tables.Adds · given) (fun item listed between value next before ended =>
      before.trans (adds item listed between next value before.intact ended))
    ended (.refl intact)

theorem revokeAll_takes {privileges : Privileges} {scope : Option Scope} {users : List String}
    (intact : tables.Intact) (shown : handle.userTable = true)
    (ended : (users.forM (revokeFrom bootstrap handle privileges scope)).Ends runCommand tables value
      after) (place : Place) :
    after.Lacks (AclStatement.taken place (.revoke privileges scope users)) place := by
  by_cases named : place.name ∈ users
  · have alone : AclStatement.taken place (.revoke privileges scope users) =
        AclStatement.taken place (.revoke privileges scope [place.name]) := by
      simp [AclStatement.taken, named]
    rw [alone]
    induction users generalizing tables with
    | nil => simp at named
    | cons user users ih =>
      obtain ⟨_, between, one, more⟩ := Ends.bind_iff.1 ended
      obtain ⟨adds, gone⟩ := @revokeFrom_adds _ _ _ _ _ _ (fun _ => 0) _ _ intact shown one
      by_cases later : place.name ∈ users
      · exact ih adds.intact more later (by simp [AclStatement.taken, later])
      · have first : place.name = user := by
          rcases mem_cons.1 named with same | listed
          · exact same
          · exact absurd listed later
        rw [first]
        have rest : between.Adds after fun _ => 0 := forM_adds adds.intact
          (fun name _ tables after value intact ended => (revokeFrom_adds intact shown ended).1) more
        exact rest.lacks (BitVec.zero_and) (gone place first)
  · have nothing : AclStatement.taken place (.revoke privileges scope users) = 0 := by
      simp [AclStatement.taken, named]
    rw [nothing]
    cases place <;> exact fun _ _ => by simp

theorem execute_adds {statement : AclStatement} (started : tables = .absent ∨ tables.Intact)
    (ended : (execute hashes bootstrap policy session statement).Ends runCommand tables value
      after) :
    after.Intact ∧ (tables.Intact -> tables.Adds after fun place => statement.given place) ∧
      ∀ place, after.Lacks (statement.taken place) place := by
  obtain ⟨handle, ready, ensures, runs⟩ := Ends.bind_iff.1 ended
  obtain ⟨shown, intact, still⟩ := ends_ensureStore started ensures
  have nothing : ∀ place : Place, after.Lacks 0 place := fun place => by
    cases place <;> exact fun _ _ => by simp
  have sums : ready.Adds after (fun place => statement.given place) ->
      after.Intact ∧ (tables.Intact -> tables.Adds after fun place => statement.given place) :=
    fun adds => ⟨adds.intact, fun before => still before ▸ adds⟩
  cases statement with
  | createUser users ifNotExists =>
    have adds := sums (forM_adds intact (fun user _ _ _ _ intact ended =>
      createUser_adds intact shown ended) runs)
    exact ⟨adds.1, adds.2, nothing⟩
  | dropUser users ifExists =>
    have adds := sums (forM_adds intact (fun name _ _ _ _ intact ended =>
      dropUser_adds intact shown ended) runs)
    exact ⟨adds.1, adds.2, nothing⟩
  | alterUser users ifExists =>
    have adds := sums (forM_adds intact (fun user _ _ _ _ intact ended =>
      alterUser_adds intact shown ended) runs)
    exact ⟨adds.1, adds.2, nothing⟩
  | grant privileges scope users grantOption =>
    have adds := sums (forM_adds intact (fun name named _ _ _ intact ended =>
      grantTo_adds intact shown named ended) runs)
    exact ⟨adds.1, adds.2, nothing⟩
  | revoke privileges scope users =>
    have adds := sums (forM_adds intact (fun name _ _ _ _ intact ended =>
      (revokeFrom_adds intact shown ended).1) runs)
    exact ⟨adds.1, adds.2, revokeAll_takes intact shown runs⟩

end Statements

end InlaySql.Server
