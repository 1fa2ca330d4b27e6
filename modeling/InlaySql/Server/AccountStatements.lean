import InlaySql.Server.AccountTables

/-!
# Account statements

`CREATE USER`, `DROP USER`, `ALTER USER`, `GRANT` and `REVOKE` as the engine statements they
issue. Each user of a list is looked up, checked and written in turn, and each engine statement
commits by itself.
-/

namespace InlaySql.Server

open Lib Sql

inductive PasswordPolicy where
  | scramble
  | strong
  deriving DecidableEq

structure NewUser where
  name : String
  plugin : Option String
  password : String

/-- Where a grant applies. -/
inductive Scope where
  | global
  | table (name : String)
  deriving DecidableEq

/-- The account statements that write. `REVOKE` without a scope takes everything. -/
inductive AclStatement where
  | createUser (users : List NewUser) (ifNotExists : Bool)
  | dropUser (users : List String) (ifExists : Bool)
  | alterUser (users : List NewUser) (ifExists : Bool)
  | grant (privileges : Privileges) (scope : Scope) (users : List String) (grantOption : Bool)
  | revoke (privileges : Privileges) (scope : Option Scope) (users : List String)

def Privileges.isEmpty (self : Privileges) : Bool := self.mask == 0

/-- Everything, with the grant option. -/
def Privileges.superuser : Privileges := Privileges.all.withPrivileges .grantOption

namespace MysqlError

def operationFailed (operation name : String) : MysqlError :=
  new 1396 "HY000" ("Operation " ++ operation ++ " failed for '" ++ name ++ "'@'%'")

def noSuchAccount (name : String) : MysqlError :=
  new 1133 "42000" ("Can't find any matching row in the user table for '" ++ name ++ "'@'%'")

def reservedTableDenied (user table : String) : MysqlError :=
  new 1142 "42000" ("command denied to user '" ++ user ++ "'@'%' for table '" ++ table ++
    "': this is InlaySQL's own account store and no statement may read or write it, superuser " ++
    "included — use CREATE USER / ALTER USER / DROP USER / GRANT / REVOKE / SHOW GRANTS")

def lastSuperuser (operation name : String) : MysqlError :=
  new 1227 "42000" (operation ++ " would leave '" ++ name ++ "'@'%' as the last account that can " ++
    "administer this database with nobody to replace it, and nothing could then create another " ++
    "over the wire — GRANT ALL PRIVILEGES ON *.* ... WITH GRANT OPTION to somebody else first, " ++
    "or restart the server with --reset-superuser")

/-- What a client sees of a session that panics. -/
def connectionLost : MysqlError := new 2013 "HY000" "Lost connection to MySQL server during query"

end MysqlError

/-! ## Reserved names -/

/-- `__inlaysql_`, eleven bytes. -/
def reservedTablePrefix : String := "__inlaysql_"

/-- The first bytes of a text, unless they end inside a character. -/
def cutAt : Nat -> List Char -> Option (List Char)
  | 0, _ => some []
  | _ + 1, [] => none
  | bytes + 1, first :: rest =>
    if first.utf8Size ≤ bytes + 1 then
      (cutAt (bytes + 1 - first.utf8Size) rest).map (first :: ·)
    else none

/-- `is_reserved_table_name`. The slice panics, `none`, where it cuts a character. -/
def isReserved (name : String) : Option Bool :=
  if (utf8 name).length ≤ (utf8 reservedTablePrefix).length then some false
  else (cutAt (utf8 reservedTablePrefix).length name.toList).map fun front =>
    lower (String.ofList front) == lower reservedTablePrefix

/-! ## Reads and writes -/

/-- What an account statement does: engine statements, then an outcome. -/
abbrev AccountScript (α : Type) := Script Command Command.Answer MysqlError α

def issue (command : Command) : AccountScript command.Answer := Script.ask command

/-- `?`: stop at the engine's error. -/
def orFail {α : Type} : Except MysqlError α -> AccountScript α
  | .ok value => .done value
  | .error error => .failed error

section Statements

variable (hashes : Hashes) (bootstrap : Bootstrap) (policy : PasswordPolicy)

/-- `ensure_store`: create the tables, and move the bootstrap credential into them. -/
def ensureStore : AccountScript Handle := do
  let handle <- issue .catalog
  if handle.userTable then return handle
  orFail (<- issue .createUserTable)
  orFail (<- issue .createUserIndex)
  orFail (<- issue .createGrantTable)
  orFail (<- issue .createGrantIndex)
  let seed := bootstrap.account
  orFail (<- issue (.insertUser ⟨seed.name, seed.native, seed.sha2, some seed.global.bits⟩))
  return ⟨true, true⟩

/-- `stored_account`, with the catalog the query read. -/
def storedAccount (name : String) : AccountScript (Option Account × Handle) := do
  match <- issue (.selectUser name) with
  | (.ok rows, handle) => return (rows.head?.map UserRow.account, handle)
  | (.error error, handle) => if handle.userTable then .failed error else return (none, handle)

/-- `acl::account`: the bootstrap credential stands in for a missing store. -/
def account (handle : Handle) (name : String) : AccountScript (Option Account × Handle) := do
  if handle.userTable then storedAccount name
  else
    let (refreshed, handle) <- storedAccount name
    if handle.userTable then return (refreshed, handle)
    else return (if name = bootstrap.user then some bootstrap.account else none, handle)

def tableGrant (handle : Handle) (name table : String) : AccountScript Privileges := do
  if handle.grantTable then
    let rows <- orFail (<- issue (.selectGrant name (lower table)))
    return (rows.head?.map .fromBits).getD .none
  else return .none

/-- `verifiers`: what is stored for a password. -/
def verifiers (password : String) (plugin : Option String) :
    AccountScript (Option String × Option String) := do
  if policy = .strong ∧ plugin ≠ some nativePassword then
    let salt <- issue .random
    return (none, some (strongVerifier hashes salt password))
  else if plugin = some nativePassword then return (some (nativeVerifier hashes password), none)
  else if plugin = some cachingSha2Password then return (none, some (sha2Verifier hashes password))
  else return (some (nativeVerifier hashes password), some (sha2Verifier hashes password))

def insertAccount (user : NewUser) (global : Privileges) : AccountScript Unit := do
  let (native, sha2) <- verifiers hashes policy user.password user.plugin
  orFail (<- issue (.insertUser ⟨user.name, native, sha2, some global.bits⟩))

def setPassword (user : NewUser) : AccountScript Unit := do
  let (native, sha2) <- verifiers hashes policy user.password user.plugin
  orFail (<- issue (.updateAuth user.name native sha2))

def setGlobal (name : String) (global : Privileges) : AccountScript Unit := do
  orFail (<- issue (.updateGlobal name global.bits))

def deleteUser (name : String) : AccountScript Unit := do orFail (<- issue (.deleteUser name))

def deleteGrants (name : String) : AccountScript Unit := do orFail (<- issue (.deleteGrants name))

def setTableGrant (name target : String) (privileges : Privileges) : AccountScript Unit := do
  let existing <- orFail (<- issue (.selectGrantId name (lower target)))
  match privileges.isEmpty, existing.head? with
  | true, some _ => orFail (<- issue (.deleteGrant name (lower target)))
  | true, none => return ()
  | false, some id => orFail (<- issue (.updateGrant id privileges.bits))
  | false, none => orFail (<- issue (.insertGrant name (lower target) privileges.bits))

def refuseIfLastSuperuser (name operation : String) : AccountScript Unit := do
  let rows <- orFail (<- issue .selectUsers)
  let others := rows.filter fun row => row.name ≠ name ∧ row.account.isSuperuser
  if others.card > 0 then return () else .failed (.lastSuperuser operation name)

/-! ## The statements -/

/-- One account of `CREATE USER`. -/
def createUser (handle : Handle) (ifNotExists : Bool) (user : NewUser) : AccountScript Unit := do
  match <- account bootstrap handle user.name with
  | (some _, _) =>
    if ifNotExists then return () else .failed (.operationFailed "CREATE USER" user.name)
  | (none, _) => insertAccount hashes policy user .none

/-- One account of `DROP USER`. -/
def dropUser (handle : Handle) (ifExists : Bool) (name : String) : AccountScript Unit := do
  match <- account bootstrap handle name with
  | (none, _) => if ifExists then return () else .failed (.operationFailed "DROP USER" name)
  | (some _, _) =>
    refuseIfLastSuperuser name "DROP USER"
    deleteUser name
    deleteGrants name

/-- One account of `ALTER USER`. -/
def alterUser (handle : Handle) (ifExists : Bool) (user : NewUser) : AccountScript Unit := do
  match <- account bootstrap handle user.name with
  | (none, _) => if ifExists then return () else .failed (.operationFailed "ALTER USER" user.name)
  | (some _, _) => setPassword hashes policy user

/-- One account of `GRANT`, in a session of the user. -/
def grantTo (session : String) (handle : Handle) (privileges : Privileges) (scope : Scope)
    (grantOption : Bool) (name : String) : AccountScript Unit := do
  match <- account bootstrap handle name with
  | (none, _) => .failed (.noSuchAccount name)
  | (some existing, handle) =>
    match scope with
    | .global =>
      let granted := existing.global.withPrivileges privileges
      setGlobal name (if grantOption then granted.withPrivileges .grantOption else granted)
    | .table table =>
      match isReserved table with
      | none => .failed .connectionLost
      | some true => .failed (.reservedTableDenied session table)
      | some false =>
        let held <- tableGrant handle name table
        setTableGrant name table (held.withPrivileges privileges)

/-- Whether a `REVOKE` takes away what makes a superuser. -/
def clearsSuperuser (existing : Account) (privileges : Privileges) : Option Scope -> Bool
  | none => true
  | some .global => !(existing.global.without privileges).contains .superuser
  | some (.table _) => false

/-- The last superuser may not be demoted. -/
def checkRevoke (existing : Account) (privileges : Privileges) (scope : Option Scope)
    (name : String) : AccountScript Unit :=
  if clearsSuperuser existing privileges scope && existing.isSuperuser then
    refuseIfLastSuperuser name "REVOKE"
  else return ()

/-- One account of `REVOKE`. -/
def revokeFrom (handle : Handle) (privileges : Privileges) (scope : Option Scope) (name : String) :
    AccountScript Unit := do
  match <- account bootstrap handle name with
  | (none, _) => .failed (.noSuchAccount name)
  | (some existing, handle) =>
    checkRevoke existing privileges scope name
    match scope with
    | none =>
      setGlobal name .none
      deleteGrants name
    | some .global => setGlobal name (existing.global.without privileges)
    | some (.table table) =>
      let held <- tableGrant handle name table
      setTableGrant name table (held.without privileges)

/-- `acl::execute`, of a statement that writes. -/
def execute (session : String) (statement : AclStatement) : AccountScript Unit := do
  let handle <- ensureStore bootstrap
  match statement with
  | .createUser users ifNotExists =>
    users.forM (createUser hashes bootstrap policy handle ifNotExists)
  | .dropUser users ifExists => users.forM (dropUser bootstrap handle ifExists)
  | .alterUser users ifExists => users.forM (alterUser hashes bootstrap policy handle ifExists)
  | .grant privileges scope users grantOption =>
    users.forM (grantTo bootstrap session handle privileges scope grantOption)
  | .revoke privileges scope users => users.forM (revokeFrom bootstrap handle privileges scope)

end Statements

end InlaySql.Server
