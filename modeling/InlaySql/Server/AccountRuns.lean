import InlaySql.Server.AccountFootprint
import InlaySql.Server.AccountHeld

/-!
# Account statements side by side

Several sessions run account statements on one store, and their engine statements interleave.
As long as no engine statement meets the cells of a statement in progress, nor turns away one
that has changed something, the store is what the statements that succeeded leave one after the
other. Two sessions that drop the last two superusers at the same time leave none.
-/

namespace InlaySql.Server

open List Lib Sql Footprint

/-- An account statement, and the user of the session that runs it. -/
abbrev AccountTask := String × AclStatement

/-- Sessions on one account store. -/
abbrev Sessions (Client : Type) := accountFootprint.Shared AccountTask MysqlError Unit Client

section Runs

variable (hashes : Hashes) (bootstrap : Bootstrap) (policy : PasswordPolicy) {Client : Type}
  [DecidableEq Client]

/-- The engine statements of a task. -/
def AccountTask.script (task : AccountTask) : AccountScript Unit :=
  execute hashes bootstrap policy task.1 task.2

/-- The tables have the same rows. -/
structure AccountTables.SameRows (tables other : AccountTables) : Prop where
  handle : tables.handle = other.handle
  users : tables.users.Perm other.users
  grants : tables.grants.Perm other.grants

/-- What the sessions left is what some sequential order of the statements that succeeded
leaves, in which what a statement took is not held until it is granted again; and the store is
in order. -/
structure Orderly (start : AccountTables) (sessions : Sessions Client) : Prop where
  sequential : ∃ order after, order.Perm sessions.succeeded ∧
    Shared.InSequence runCommand (AccountTask.script hashes bootstrap policy) start order after ∧
    after.SameRows sessions.store ∧
    ∀ before task later place, order = before ++ task :: later ->
      (∀ next ∈ later, next.2.given place &&& task.2.taken place = 0) ->
      sessions.store.Lacks (task.2.taken place) place
  oneGrant : (sessions.store.grants.map fun row => (row.account, row.target)).Nodup
  owned : ∀ row ∈ sessions.store.grants, ∃ user ∈ sessions.store.users, user.name = row.account
  administered : sessions.store.handle.userTable = true ->
    ∃ user ∈ sessions.store.users, user.account.isSuperuser = true

variable {hashes bootstrap policy} {start after : AccountTables} {order : List AccountTask}

/-! ## Sequences -/

section

variable (started : start = .absent ∨ start.Intact)
    (sequence : Shared.InSequence runCommand (AccountTask.script hashes bootstrap policy) start
      order after)

include started sequence

theorem intact_of_inSequence : after = .absent ∨ after.Intact := by
  induction sequence with
  | nil => exact started
  | snoc prior ended ih => exact .inr (execute_adds ih ended).1

theorem lacks_of_inSequence {before later : List AccountTask} {task : AccountTask} {place : Place}
    (split : order = before ++ task :: later)
    (apart : ∀ next ∈ later, next.2.given place &&& task.2.taken place = 0) :
    after.Intact ∧ after.Lacks (task.2.taken place) place := by
  induction sequence generalizing later with
  | nil => simp at split
  | @snoc tasks between last value after prior ended ih =>
    have ready := intact_of_inSequence started prior
    rcases eq_nil_or_concat later with rfl | ⟨front, final, rfl⟩
    · obtain ⟨rfl, same⟩ := append_inj' split rfl
      obtain rfl : last = task := by simpa using same
      obtain ⟨intact, -, gone⟩ := execute_adds ready ended
      exact ⟨intact, gone place⟩
    · have joined : tasks ++ [last] = (before ++ task :: front) ++ [final] := by simpa using split
      obtain ⟨rfl, same⟩ := append_inj' joined rfl
      obtain rfl : last = final := by simpa using same
      obtain ⟨intact, lacks⟩ := ih rfl fun next listed => apart next (by simp [listed])
      obtain ⟨intactAfter, adds, -⟩ := execute_adds ready ended
      exact ⟨intactAfter, (adds intact).lacks (apart last (by simp)) lacks⟩

end

theorem AccountTables.sameRows_of_same {tables other : AccountTables}
    (same : accountFootprint.Same tables other) : tables.SameRows other where
  handle := (handle_of_schema (same .schema trivial)).symm
  users := (users_perm fun name => same (.user name) trivial).symm
  grants := by
    refine perm_iff_count.2 fun row => ?_
    have here : ∀ rows : List GrantRow, rows.count row = (rows.filter (·.id = row.id)).count row :=
      fun rows => (count_filter (by simp)).symm
    rw [here tables.grants, here other.grants]
    exact congrArg (List.count row) (same (.row row.id) trivial).symm

theorem AccountTables.SameRows.lacks {tables other : AccountTables} (same : tables.SameRows other)
    {taken : BitVec 32} {place : Place} (lacks : tables.Lacks taken place) :
    other.Lacks taken place := by
  cases place with
  | global name => exact fun user listed => lacks user (same.users.mem_iff.2 listed)
  | table name target => exact fun row listed => lacks row (same.grants.mem_iff.2 listed)

end Runs

/-! ## Two superusers dropped at once -/

def blankHashes : Hashes where
  sha1 _ := List.replicate 20 0
  sha256 _ := List.replicate 32 0
  pbkdf2 _ _ _ := []
  length_sha1 _ := length_replicate
  length_sha256 _ := length_replicate

def superuserRow (name : String) : UserRow := ⟨name, some "*", none, some 255⟩

/-- A store of two superusers. -/
def twoSuperusers : AccountTables := ⟨some [superuserRow "ann", superuserRow "bob"], true, some [], true⟩

theorem twoSuperusers_intact : twoSuperusers.Intact where
  userTable := rfl
  userIndex := rfl
  grantTable := rfl
  names := by decide
  oneGrant := nodup_nil
  ids := nodup_nil
  owned := nofun
  administered := ⟨superuserRow "ann", by decide, by decide⟩

/-- The machine of a session that sees the store and meets no error. -/
def calm : Choice := ⟨⟨true, true⟩, [], false, .connectionLost, 1⟩

def dropTask (name : String) : AccountTask := ("root", .dropUser [name] false)

def createTask (name : String) : AccountTask :=
  ("root", .createUser [⟨name, some nativePassword, ""⟩] false)

def storeScript (task : AccountTask) : AccountScript Unit :=
  task.script blankHashes (.new blankHashes "root" "") .scramble

section Race

variable {Client : Type} [DecidableEq Client]

abbrev StoreSystem (condition : Sessions Client -> Move Client AccountTask Choice -> Prop) :=
  Shared.system storeScript (· = twoSuperusers) condition

variable {condition : Sessions Client -> Move Client AccountTask Choice -> Prop}
  {moves : List (Move Client AccountTask Choice)} {sessions : Sessions Client}

theorem issued (client : Client)
    {progress : accountFootprint.Progress AccountTask MysqlError Unit} {command : Command}
    {next : command.Answer -> AccountScript Unit}
    (run : (StoreSystem condition).Runs moves sessions)
    (running : sessions.active client = some progress)
    (calls : progress.rest = .call command next)
    (meets : condition sessions (.command client calm)) :
    (StoreSystem condition).Runs (moves ++ [.command client calm])
      (sessions.issue client progress command next calm) := by
  obtain ⟨start, initial, steps⟩ := run
  exact ⟨start, initial, .step steps ⟨.command calm running calls, meets⟩⟩

theorem begun (client : Client) (task : AccountTask)
    (run : (StoreSystem condition).Runs moves sessions) (idle : sessions.active client = none)
    (meets : condition sessions (.begin client task)) :
    (StoreSystem condition).Runs (moves ++ [.begin client task])
      (sessions.setActive client (some ⟨task, storeScript task, ∅, ∅⟩)) := by
  obtain ⟨start, initial, steps⟩ := run
  exact ⟨start, initial, .step steps ⟨.begin idle, meets⟩⟩

theorem succeeded (client : Client)
    {progress : accountFootprint.Progress AccountTask MysqlError Unit}
    (run : (StoreSystem condition).Runs moves sessions)
    (running : sessions.active client = some progress) (ended : progress.rest = .done ())
    (meets : condition sessions (.finish client)) :
    (StoreSystem condition).Runs (moves ++ [.finish client]) { sessions.setActive client none with
        succeeded := sessions.succeeded ++ [progress.task] } := by
  obtain ⟨start, initial, steps⟩ := run
  exact ⟨start, initial, .step steps ⟨.succeed running ended, meets⟩⟩

/-- Nobody is connected. -/
def noSession : Sessions Client := ⟨twoSuperusers, fun _ => none, []⟩

theorem noSession_runs (condition : Sessions Client -> Move Client AccountTask Choice -> Prop) :
    (StoreSystem condition).Runs [] noSession :=
  ⟨noSession, ⟨rfl, fun _ => rfl, rfl⟩, .refl⟩

end Race

theorem dropBoth_runs : ∃ moves sessions, (StoreSystem fun (_ : Sessions Bool) _ => True).Runs moves
      sessions ∧ sessions.Quiet ∧ sessions.store = ⟨some [], true, some [], true⟩ := by
  have ready := noSession_runs fun (_ : Sessions Bool) _ => True
  have ann := begun false (dropTask "ann") ready rfl trivial
  have both := begun true (dropTask "bob") ann rfl trivial
  have annCatalog := issued false both rfl rfl trivial
  have annFound := issued false annCatalog rfl rfl trivial
  have annChecked := issued false annFound rfl rfl trivial
  have bobCatalog := issued true annChecked rfl rfl trivial
  have bobFound := issued true bobCatalog rfl rfl trivial
  have bobChecked := issued true bobFound rfl rfl trivial
  have annDropped := issued false bobChecked rfl rfl trivial
  have annCleared := issued false annDropped rfl rfl trivial
  have bobDropped := issued true annCleared rfl rfl trivial
  have bobCleared := issued true bobDropped rfl rfl trivial
  have annDone := succeeded false bobCleared rfl rfl trivial
  have bobDone := succeeded true annDone rfl rfl trivial
  exact ⟨_, _, bobDone, fun client => by cases client <;> rfl, rfl⟩

/-- A statement in progress that has seen the schema and the rows of one account name, and has
changed no others. -/
structure Within (name : String) (progress : accountFootprint.Progress AccountTask MysqlError Unit) :
    Prop where
  touched : progress.touched ⊆ {.schema, .user name}
  changed : progress.changed ⊆ {.user name}

/-- An engine statement that sees the schema and the rows of one account name, and changes no
others. -/
structure Near (name : String) (command : Command) (tables : AccountTables) : Prop where
  touched : accountFootprint.touched command calm tables ⊆ {.schema, .user name}
  changed : accountFootprint.changed command calm tables ⊆ {.user name}

theorem Near.of_kept {name : String} {command : Command} {tables : AccountTables}
    (touched : accountFootprint.touched command calm tables ⊆ {.schema, .user name})
    (schema : (runCommand command calm tables).2.cell .schema = tables.cell .schema) :
    Near name command tables where
  touched := touched
  changed key moved := by
    rcases touched (changed_subset moved) with rfl | named
    · exact absurd schema moved
    · exact named

section Apart

variable {names : Bool → String} (apart : ∀ {client other}, other ≠ client → names other ≠ names client)
  {condition : Sessions Bool -> Move Bool AccountTask Choice -> Prop}
  {moves : List (Move Bool AccountTask Choice)} {sessions : Sessions Bool}

include apart

/-- A session that keeps to its own account name does not disturb the other. -/
theorem issuedApart (client : Bool)
    {progress : accountFootprint.Progress AccountTask MysqlError Unit} {command : Command}
    {next : command.Answer -> AccountScript Unit}
    (before : (StoreSystem Shared.Undisturbed).Runs moves sessions ∧
      ∀ client progress, sessions.active client = some progress -> Within (names client) progress)
    (running : sessions.active client = some progress)
    (calls : progress.rest = .call command next)
    (near : Near (names client) command sessions.store)
    (goesOn : ∀ error, next (runCommand command calm sessions.store).1 ≠ .failed error) :
    (StoreSystem Shared.Undisturbed).Runs (moves ++ [.command client calm])
      (sessions.issue client progress command next calm) ∧
    ∀ other rival, (sessions.issue client progress command next calm).active other = some rival ->
      Within (names other) rival := by
  obtain ⟨run, within⟩ := before
  refine ⟨issued client run running calls fun same command next runs here => ?_, fun other rival runs => ?_⟩
  · obtain rfl : progress = same := by simpa [running] using runs
    rw [calls] at here
    cases here
    refine ⟨fun other rival different runs => ?_, fun _ => goesOn⟩
    have rivals := within _ rival runs
    constructor
    · refine (Set.disjoint_singleton_right.2 ?_).mono near.touched rivals.changed
      rintro (same | same)
      · exact AccountKey.noConfusion same
      · exact apart different (AccountKey.user.inj same)
    · refine (Set.disjoint_singleton_left.2 ?_).mono near.changed rivals.touched
      rintro (same | same)
      · exact AccountKey.noConfusion same
      · exact apart different (AccountKey.user.inj same).symm
  · rcases eq_or_ne other client with rfl | different
    · obtain rfl := Option.some.inj (Shared.issue_self.symm.trans runs)
      have own := within _ progress running
      exact ⟨Set.union_subset own.touched near.touched, Set.union_subset own.changed near.changed⟩
    · exact within other rival ((Shared.issue_of_ne different).symm.trans runs)

end Apart

end InlaySql.Server
