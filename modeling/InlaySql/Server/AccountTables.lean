import InlaySql.Lib.Script
import InlaySql.Server.Account

/-!
# The account tables

The account store is two tables of the database, each with an index. The account statements
reach them through engine statements that commit one by one. What another session may do to
the tables lies between two of them.
-/

namespace InlaySql.Server

open Lib Sql

deriving instance DecidableEq for UserRow

/-- One row of the grant table. -/
structure GrantRow where
  id : Int
  account : String
  target : String
  privileges : Int
  deriving DecidableEq

/-- `__inlaysql_user` and `__inlaysql_grant`, and whether their indexes exist. -/
structure AccountTables where
  userTable : Option (List UserRow)
  userIndex : Bool
  grantTable : Option (List GrantRow)
  grantIndex : Bool
  deriving DecidableEq

/-- Which of the two tables a handle's catalog shows. -/
structure Handle where
  userTable : Bool
  grantTable : Bool
  deriving DecidableEq

namespace AccountTables

/-- A database that never had an account statement. -/
def absent : AccountTables := ⟨none, false, none, false⟩

def handle (self : AccountTables) : Handle := ⟨self.userTable.isSome, self.grantTable.isSome⟩

def users (self : AccountTables) : List UserRow := self.userTable.getD []

def grants (self : AccountTables) : List GrantRow := self.grantTable.getD []

end AccountTables

/-! ## Engine statements -/

/-- What the account statements ask for, one engine statement each; `catalog` looks at the
handle's own catalog, and `random` draws a salt. -/
inductive Command where
  | catalog
  | random
  | createUserTable
  | createUserIndex
  | createGrantTable
  | createGrantIndex
  | insertUser (row : UserRow)
  | selectUser (name : String)
  | selectUsers
  | updateAuth (name : String) (native sha2 : Option String)
  | updateGlobal (name : String) (privileges : Int)
  | deleteUser (name : String)
  | selectGrant (account target : String)
  | selectGrantId (account target : String)
  | insertGrant (account target : String) (privileges : Int)
  | updateGrant (id privileges : Int)
  | deleteGrant (account target : String)
  | deleteGrants (account : String)

/-- What comes back. A query reads the catalog anew, and its rows are in no order. -/
def Command.Answer : Command -> Type
  | catalog => Handle
  | random => Bytes
  | selectUser _ => Except MysqlError (List UserRow) × Handle
  | selectUsers => Except MysqlError (Multiset UserRow)
  | selectGrant _ _ => Except MysqlError (List Int)
  | selectGrantId _ _ => Except MysqlError (List Int)
  | _ => Except MysqlError Unit

/-- What the engine and the machine decide: what the handle's catalog last showed, the salt,
whether the statement fails for a reason of its own and with what error, and the row id. -/
structure Choice where
  seen : Handle
  salt : Bytes
  fault : Bool
  error : MysqlError
  rowId : Int

/-- A statement on a table: it fails when the engine fails, the table is missing or the rows
forbid it. -/
def Choice.onRows {ρ α : Type} (choice : Choice) (table : Option (List ρ))
    (change : List ρ -> Option (α × List ρ)) : Except MysqlError α × Option (List ρ) :=
  match choice.fault, table with
  | false, some rows =>
    match change rows with
    | some (answer, after) => (.ok answer, some after)
    | none => (.error choice.error, some rows)
  | _, _ => (.error choice.error, table)

namespace AccountTables

def onUsers {α : Type} (choice : Choice) (self : AccountTables)
    (change : List UserRow -> Option (α × List UserRow)) : Except MysqlError α × AccountTables :=
  ((choice.onRows self.userTable change).1,
    { self with userTable := (choice.onRows self.userTable change).2 })

def onGrants {α : Type} (choice : Choice) (self : AccountTables)
    (change : List GrantRow -> Option (α × List GrantRow)) : Except MysqlError α × AccountTables :=
  ((choice.onRows self.grantTable change).1,
    { self with grantTable := (choice.onRows self.grantTable change).2 })

/-- A statement that changes the schema, or fails. -/
def onSchema (choice : Choice) (self : AccountTables) (change : Option AccountTables) :
    Except MysqlError Unit × AccountTables :=
  match choice.fault, change with
  | false, some after => (.ok (), after)
  | _, _ => (.error choice.error, self)

end AccountTables

open AccountTables in
/-- One engine statement. -/
def runCommand : Machine Command Command.Answer Choice AccountTables
  | .catalog, choice, tables =>
    (⟨choice.seen.userTable && tables.userTable.isSome,
      choice.seen.grantTable && tables.grantTable.isSome⟩, tables)
  | .random, choice, tables => (choice.salt, tables)
  | .createUserTable, choice, tables => onSchema choice tables
      (if tables.userTable.isSome then none else some { tables with userTable := some [] })
  | .createUserIndex, choice, tables => onSchema choice tables
      (if tables.userTable.isSome ∧ tables.userIndex = false ∧ (tables.users.map (·.name)).Nodup
        then some { tables with userIndex := true } else none)
  | .createGrantTable, choice, tables => onSchema choice tables
      (if tables.grantTable.isSome then none else some { tables with grantTable := some [] })
  | .createGrantIndex, choice, tables => onSchema choice tables
      (if tables.grantTable.isSome ∧ tables.grantIndex = false
        then some { tables with grantIndex := true } else none)
  | .insertUser row, choice, tables => onUsers choice tables fun rows =>
    if tables.userIndex ∧ ∃ other ∈ rows, other.name = row.name then none
    else some ((), rows ++ [row])
  | .selectUser name, choice, tables =>
    (((onUsers choice tables fun rows => some (rows.filter (·.name = name), rows)).1,
      tables.handle), tables)
  | .selectUsers, choice, tables => onUsers choice tables fun rows => some (Multiset.ofList rows, rows)
  | .updateAuth name native sha2, choice, tables => onUsers choice tables fun rows =>
    some ((), rows.map fun row =>
      if row.name = name then { row with nativeAuth := native, sha2Auth := sha2 } else row)
  | .updateGlobal name privileges, choice, tables => onUsers choice tables fun rows =>
    some ((), rows.map fun row =>
      if row.name = name then { row with privileges := some privileges } else row)
  | .deleteUser name, choice, tables => onUsers choice tables fun rows =>
    some ((), rows.filter (·.name ≠ name))
  | .selectGrant account target, choice, tables => onGrants choice tables fun rows =>
    some ((rows.filter fun row => row.account = account ∧ row.target = target).map
      (·.privileges), rows)
  | .selectGrantId account target, choice, tables => onGrants choice tables fun rows =>
    some ((rows.filter fun row => row.account = account ∧ row.target = target).map (·.id), rows)
  | .insertGrant account target privileges, choice, tables => onGrants choice tables fun rows =>
    if ∃ row ∈ rows, row.id = choice.rowId then none
    else some ((), rows ++ [⟨choice.rowId, account, target, privileges⟩])
  | .updateGrant id privileges, choice, tables => onGrants choice tables fun rows =>
    some ((), rows.map fun row => if row.id = id then { row with privileges } else row)
  | .deleteGrant account target, choice, tables => onGrants choice tables fun rows =>
    some ((), rows.filter fun row => ¬(row.account = account ∧ row.target = target))
  | .deleteGrants account, choice, tables => onGrants choice tables fun rows =>
    some ((), rows.filter (·.account ≠ account))

end InlaySql.Server
