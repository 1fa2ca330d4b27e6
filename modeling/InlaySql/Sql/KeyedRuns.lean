import InlaySql.Sql.CatalogSpec
import InlaySql.Sql.KeyedTable

/-!
# Runs on a table without row ids

Any number of statements on one `WITHOUT ROWID` table, beside the reference. As long as
the rows they store are ones whose keys the stored bytes tell apart as the comparisons do,
every statement answers as the reference answers and a scan yields its rows. Two integers
that round to one double are told apart by the comparisons and not by the bytes, and then
a row replaces another one.
-/

namespace InlaySql.Sql

open Lib
open Stateful

/-! ## Tables as they are declared -/

/-! ## Statements -/

/-- A statement that writes rows of one table. -/
inductive KeyedStatement where
  | insert (plan : InsertPlan)
  | update (plan : UpdatePlan)
  | delete (plan : DeletePlan)

namespace KeyedStatement

/-- What the engine does. -/
def run (host : Host) (params : List Value) : KeyedStatement -> Method Engine.Progress
  | .insert plan => Engine.insertUncommitted host params plan
  | .update plan => Engine.updateUncommitted host params plan
  | .delete plan => Engine.deleteUncommitted host params plan

/-- What the reference does. -/
def reference (host : Host) (params : List Value) (table : Table)
    (key : List Nat × List Collation) : KeyedStatement -> Reference Engine.Progress
  | .insert plan => Reference.insert host params plan table key
  | .update plan => Reference.update host params plan table key
  | .delete plan => Reference.delete host params plan key

/-- The statement is one the planner makes for this table, and no other handle writes the
table while an `INSERT ... SELECT` runs its query. -/
def Addresses (host : Host) (params : List Value) (table : Table) (engine : Engine) :
    KeyedStatement -> Prop
  | .insert plan => engine.catalog.requireTable plan.table = .ok table ∧ plan.source.Sized table ∧
      ∀ rules, tableRules host engine.catalog table = .ok rules ->
        (Engine.proposedRows host params table rules plan.source engine).2.storage.keyedRows
          table.name = engine.storage.keyedRows table.name
  | .update plan => engine.catalog.requireTable plan.table = .ok table
  | .delete plan => engine.catalog.requireTable plan.table = .ok table

/-- Each row the statement would store is storable, beside the rows there are at its turn. -/
def Storable (host : Host) (params : List Value) (table : Table) (key : List Nat × List Collation)
    (engine : Engine) (rows : List Row) : KeyedStatement -> Prop
  | .insert plan => ∀ rules proposed after, tableRules host engine.catalog table = .ok rules ->
      Engine.proposedRows host params table rules plan.source engine = (.ok proposed, after) ->
      Along (Reference.InsertStorable host params plan table rules key)
        (Reference.insertSlot host params plan table rules key) proposed (0, []) (after, rows)
  | .update plan => ∀ rules, tableRules host engine.catalog table = .ok rules ->
      Along (Reference.UpdateStorable host params plan table rules key)
        (Reference.updateSlot host params plan table rules key) rows (0, []) (engine, rows)
  | .delete _ => True

end KeyedStatement

/-- Runs of statements on a table that starts empty, beside the reference. What else
happens to the engine, a commit or going back to an earlier state for one, leaves the rows
of the table as they were then. -/
inductive KeyedRun (host : Host) (table : Table) (key : List Nat × List Collation) :
    Engine -> List Row -> Prop
  | empty {engine} (none : engine.storage.keyedRows table.name = []) : KeyedRun host table key engine []
  | statement {engine rows} (prior : KeyedRun host table key engine rows) (params : List Value)
      (statement : KeyedStatement) (addresses : statement.Addresses host params table engine)
      (storable : statement.Storable host params table key engine rows) :
      KeyedRun host table key (statement.run host params engine).2
        (statement.reference host params table key (engine, rows)).2.2
  | elsewhere {engine rows after} (prior : KeyedRun host table key engine rows)
      (same : after.storage.keyedRows table.name = engine.storage.keyedRows table.name) :
      KeyedRun host table key after rows

section Runs

variable {host : Host} {params : List Value} {table : Table} {key : List Nat × List Collation}
  {engine : Engine} {rows : List Row}

/-- The rows of the table are those of the reference. -/
structure Mirrors (table : Table) (key : List Nat × List Collation) (engine : Engine)
    (rows : List Row) : Prop where
  rows : (engine.storage.keyedRows table.name).map Prod.snd = rows
  held : Held key (engine.storage.keyedRows table.name)

theorem Mirrors.tracks (mirrors : Mirrors table key engine rows) :
    Tracks table key engine (engine, rows) :=
  ⟨⟨engine.storage, rfl⟩, mirrors.rows.symm, mirrors.held⟩

theorem Mirrors.of_tracks {state : Engine × List Row} (tracks : Tracks table key engine state) :
    Mirrors table key engine state.2 := ⟨tracks.rows.symm, tracks.held⟩

theorem Mirrors.elsewhere (mirrors : Mirrors table key engine rows) {after : Engine}
    (same : after.storage.keyedRows table.name = engine.storage.keyedRows table.name) :
    Mirrors table key after rows := by
  obtain ⟨isRows, held⟩ := mirrors
  exact ⟨same ▸ isRows, same ▸ held⟩

theorem tableRules_agrees (host : Host) (table : Table) (engine : Engine) (rows : List Row) :
    Agrees (fun after next => after = engine ∧ next = (engine, rows))
      (tryGets fun engine => tableRules host engine.catalog table)
      (Stateful.aside (tryGets fun engine => tableRules host engine.catalog table)) engine
      (engine, rows) := ⟨rfl, rfl, rfl⟩

/-- The rows still to insert are as wide as the table. -/
structure Proposed (table : Table) (key : List Nat × List Collation) (remaining : List Row)
    (engine : Engine) (state : Engine × List Row) : Prop where
  tracks : Tracks table key engine state
  widths : ∀ row ∈ remaining, row.length = table.columns.length

section

variable (keyed : KeyedTable table key) (keepsCells : host.KeepsCells)

include keyed keepsCells

theorem insertRow_agrees (params : List Value) (plan : InsertPlan) (rules : TableRules)
    (carried : Engine.Progress) (proposed : Row) (remaining : List Row) (engine : Engine)
    (state : Engine × List Row) (related : Proposed table key (proposed :: remaining) engine state)
    (storable : Reference.InsertStorable host params plan table rules key state (id proposed)) :
    Agrees (Proposed table key remaining)
      (Engine.insertKeyedRow host params plan table rules key carried proposed)
      (Reference.insertSlot host params plan table rules key carried (id proposed)) engine state := by
  obtain ⟨tracks, widths⟩ := related
  rw [List.forall_mem_cons] at widths
  obtain ⟨same, tracks⟩ := insertKeyedRow_agrees keyed keepsCells plan carried widths.1 storable tracks
  exact ⟨same, tracks, widths.2⟩

theorem insert_agrees (plan : InsertPlan)
    (addresses : (KeyedStatement.insert plan).Addresses host params table engine)
    (storable : (KeyedStatement.insert plan).Storable host params table key engine rows)
    (mirrors : Mirrors table key engine rows) :
    Agrees (Tracks table key) (Engine.insertUncommitted host params plan)
      (Reference.insert host params plan table key) engine (engine, rows) := by
  obtain ⟨isTable, sized, undisturbed⟩ := addresses
  refine .known isTable ?_
  refine (tableRules_agrees host table engine rows).bind ?_ ?_
  · rintro after next ⟨rfl, rfl⟩
    exact mirrors.tracks
  · rintro rules after next isRules - ⟨rfl, rfl⟩
    have isRules : tableRules host after.catalog table = .ok rules := congrArg Prod.fst isRules
    rw [if_pos keyed.withoutRowid, keyed.isKey, ofExcept_ok_bind]
    have proposing : Agrees (fun last next => next = (last, rows) ∧ Mirrors table key last rows)
        (Engine.proposedRows host params table rules plan.source)
        (Stateful.aside (Engine.proposedRows host params table rules plan.source)) after
        (after, rows) := ⟨rfl, rfl, mirrors.elsewhere (undisturbed rules isRules)⟩
    refine proposing.bind ?_ ?_
    · rintro last next ⟨rfl, mirrors⟩
      exact mirrors.tracks
    · rintro proposed last next ran - ⟨rfl, mirrors⟩
      have widths := Engine.length_proposedRows sized ran
      have along := storable rules proposed last isRules ran
      rw [<- List.map_id proposed] at along
      have folded := Agrees.foldlM (Proposed table key) (fun _ _ _ related => related.tracks)
        (insertRow_agrees keyed keepsCells params plan rules) proposed (0, []) last (last, rows)
        ⟨mirrors.tracks, widths⟩ along
      rwa [List.map_id] at folded

theorem updateRow_agrees (params : List Value) (plan : UpdatePlan) (rules : TableRules)
    (carried : Engine.Progress) (old : Bytes × Row) (remaining : List (Bytes × Row))
    (engine : Engine) (state : Engine × List Row)
    (pending : Pending table key (old :: remaining) engine state)
    (storable : Reference.UpdateStorable host params plan table rules key state old.2) :
    Agrees (Pending table key remaining)
      (Engine.updateKeyedRow host params plan table rules key carried old)
      (Reference.updateSlot host params plan table rules key carried old.2) engine state :=
  updateKeyedRow_agrees keyed keepsCells plan carried storable pending

end

theorem Mirrors.pending (mirrors : Mirrors table key engine rows) :
    Pending table key (engine.storage.keyedRows table.name) engine (engine, rows) := by
  refine ⟨mirrors.tracks, fun stored member => Storage.mem_keyedRows.mp member, ?_⟩
  refine Storage.pairwise_keyedRows.imp fun {left right} isBefore => ?_
  exact Storage.keyBefore_or.mp (.inl isBefore)

theorem update_agrees (keyed : KeyedTable table key) (keepsCells : host.KeepsCells)
    (plan : UpdatePlan)
    (addresses : (KeyedStatement.update plan).Addresses host params table engine)
    (storable : (KeyedStatement.update plan).Storable host params table key engine rows)
    (mirrors : Mirrors table key engine rows) :
    Agrees (Tracks table key) (Engine.updateUncommitted host params plan)
      (Reference.update host params plan table key) engine (engine, rows) := by
  refine .known addresses ?_
  refine (tableRules_agrees host table engine rows).bind ?_ ?_
  · rintro after next ⟨rfl, rfl⟩
    exact mirrors.tracks
  · rintro rules after next isRules - ⟨rfl, rfl⟩
    have isRules : tableRules host after.catalog table = .ok rules := congrArg Prod.fst isRules
    rw [if_pos keyed.withoutRowid, keyed.isKey, ofExcept_ok_bind]
    have along := storable rules isRules
    have candidates := mirrors.rows
    nth_rewrite 1 [<- candidates] at along
    have folded := Agrees.foldlM (Pending table key) (fun _ _ _ pending => pending.tracks)
      (updateRow_agrees keyed keepsCells params plan rules) (after.storage.keyedRows table.name)
      (0, []) after (after, rows) mirrors.pending along
    rw [mirrors.rows] at folded
    exact folded

theorem deleteRow_agrees (host : Host) (params : List Value) (plan : DeletePlan)
    (carried : Engine.Progress) (old : Bytes × Row) (remaining : List (Bytes × Row))
    (engine : Engine) (state : Engine × List Row)
    (pending : Pending table key (old :: remaining) engine state) (_ : True) :
    Agrees (Pending table key remaining) (Engine.deleteKeyedRow host params plan table carried old)
      (Reference.deleteSlot host params plan key carried old.2) engine state :=
  deleteKeyedRow_agrees plan carried pending

theorem delete_agrees (keyed : KeyedTable table key) (plan : DeletePlan)
    (addresses : (KeyedStatement.delete plan).Addresses host params table engine)
    (mirrors : Mirrors table key engine rows) :
    Agrees (Tracks table key) (Engine.deleteUncommitted host params plan)
      (Reference.delete host params plan key) engine (engine, rows) := by
  refine .known addresses ?_
  rw [if_pos keyed.withoutRowid]
  have folded := Agrees.foldlM (Pending table key) (fun _ _ _ pending => pending.tracks)
    (deleteRow_agrees host params plan) (engine.storage.keyedRows table.name) (0, []) engine
    (engine, rows) mirrors.pending (.always _ _ _ _)
  rw [mirrors.rows] at folded
  exact folded

theorem KeyedStatement.agrees (keyed : KeyedTable table key) (keepsCells : host.KeepsCells)
    (statement : KeyedStatement) (addresses : statement.Addresses host params table engine)
    (storable : statement.Storable host params table key engine rows)
    (mirrors : Mirrors table key engine rows) :
    Agrees (Tracks table key) (statement.run host params)
      (statement.reference host params table key) engine (engine, rows) := by
  cases statement with
  | insert plan => exact insert_agrees keyed keepsCells plan addresses storable mirrors
  | update plan => exact update_agrees keyed keepsCells plan addresses storable mirrors
  | delete plan => exact delete_agrees keyed plan addresses mirrors

theorem KeyedRun.mirrors (keyed : KeyedTable table key) (keepsCells : host.KeepsCells)
    (run : KeyedRun host table key engine rows) : Mirrors table key engine rows := by
  induction run with
  | empty none => exact ⟨by rw [none]; rfl, none ▸ .nil⟩
  | statement prior params statement addresses storable ih =>
    exact .of_tracks (statement.agrees keyed keepsCells addresses storable ih).2
  | elsewhere prior same ih => exact ih.elsewhere same

/-- The table is the map of the reference: a scan yields the rows of the reference, each
once and in key order, and the next statement answers as the reference does. -/
structure IsMap (host : Host) (table : Table) (key : List Nat × List Collation) (engine : Engine)
    (rows : List Row) : Prop where
  scan : (engine.storage.keyedRows table.name).map Prod.snd = rows
  ordered : rows.Pairwise fun left right =>
    rowBefore key left right = true ∧ sameKey host.numerals key left right = false
  answers : ∀ (params : List Value) (statement : KeyedStatement),
    statement.Addresses host params table engine ->
    statement.Storable host params table key engine rows ->
    (statement.run host params engine).1 =
      (statement.reference host params table key (engine, rows)).1

/-- A `WITHOUT ROWID` table is a map keyed by its primary key. -/
theorem keyedRun_isMap (keyed : KeyedTable table key) (keepsCells : host.KeepsCells)
    (run : KeyedRun host table key engine rows) : IsMap host table key engine rows := by
  have mirrors := run.mirrors keyed keepsCells
  refine ⟨mirrors.rows, ?_, fun params statement addresses storable =>
    (statement.agrees keyed keepsCells addresses storable mirrors).1⟩
  rw [<- mirrors.rows, List.pairwise_map]
  refine Storage.pairwise_keyedRows.imp_of_mem fun {left right} isLeft isRight isBefore => ?_
  have leftHas := mirrors.held.keyed left isLeft
  have rightHas := mirrors.held.keyed right isRight
  have keeps := mirrors.held.keeps left isLeft right isRight
  rw [leftHas.rowBefore_eq rightHas keeps, leftHas.sameKey_eq rightHas keeps]
  exact ⟨isBefore, decide_eq_false (Storage.keyBefore_or.mp (.inl isBefore))⟩

end Runs

/-! ## Two keys under one double -/

/-- A host whose rows are stored as they are. -/
def plainHost : Host where
  numerals := ⟨fun _ => none, fun _ => "", fun _ => ⟨0⟩, fun _ => ""⟩
  operate _ _ _ := .ok .null
  other _ _ _ _ := .ok .null
  draw _ _ _ rng := rng
  parseExpression _ _ := .ok (.literal .null)
  expressionMentions _ _ := .ok false
  rewriteColumnReference _ _ text := .ok text
  storedRow _ row := row
  saveIndex _ _ := none
  loadIndex _ _ := none
  nearlyFull _ := false
  supportsQuantizedVectors := false
  implicitIndexes := false
  hashJoinCacheBytes := 0
  residentBytes _ := 0

/-- `CREATE TABLE t (k INTEGER PRIMARY KEY) WITHOUT ROWID`. -/
def wide : Table where
  name := "t"
  columns := [{ Column.new "k" .integer with notNull := true }]
  strict := false
  withoutRowid := true
  primaryKey := ["k"]
  temporary := false

def wideKey : List Nat × List Collation := ([0], [.binary])

/-- A handle on a database that holds the table. -/
def wideEngine : Engine where
  shared := ∅
  storage := .opened ∅
  catalog := { Catalog.empty with tables := (∅ : NameMap Table).insert "t" wide }
  retrieval _ := none
  dirtyTables := []
  nextRowId := 1
  lastInsertRowId := none
  writeVersion := 0
  schemaVersion := 0
  persistedVersion := 0
  indexedVersion := 0
  cdcFloor := 0
  pendingChanges := []
  inTransaction := false
  transactionIsImplicit := false
  transactionLog := []
  savepoints := []
  replaying := false
  hashJoinCache := none
  now := 0
  instants := []
  rng _ := 0
  signals := []
  fates := []
  joins := []

/-- `INSERT OR REPLACE INTO t VALUES (k)`. -/
def replaceWith (value : Int) : KeyedStatement :=
  .insert ⟨"t", .values [[some (.literal (.integer value))]], ⟨none, .replace, true⟩, none⟩

theorem wide_keyed : KeyedTable wide wideKey where
  withoutRowid := rfl
  isKey := by decide +kernel
  notNull := by decide +kernel

theorem plainHost_keepsCells : plainHost.KeepsCells := fun _ _ _ _ => rfl

theorem replaceWith_addresses (value : Int) (engine : Engine)
    (found : engine.catalog.requireTable "t" = .ok wide) :
    (replaceWith value).Addresses plainHost [] wide engine := by
  refine ⟨found, fun cells member => ?_, fun rules _ => ?_⟩
  · rw [List.mem_singleton.mp member]
    rfl
  · have same := Engine.storage_of_blind
      (Engine.blind_proposedRows plainHost [] wide rules [[some (.literal (.integer value))]]) engine
    exact congrArg (Storage.keyedRows · wide.name) same

/-- The handle once 2⁵³ is stored. -/
def wideStored : Engine := ((replaceWith (2 ^ 53)).run plainHost [] wideEngine).2

theorem replaceWith_storable (value : Int) {engine : Engine} {rows : List Row}
    (noConstraints : engine.catalog.constraints wide.name = none) (calm : engine.signals = [])
    (encodes : (Engine.primaryKeyBytes wideKey [.integer value]).toOption.isSome = true)
    (apart : ∀ other ∈ rows, RoundingKeeps wideKey [.integer value] other) :
    (replaceWith value).Storable plainHost [] wide wideKey engine rows := by
  intro rules proposed after isRules ran
  have rulesAre : rules = ⟨[none], [], []⟩ := by
    rw [tableRules, noConstraints] at isRules
    exact (Except.ok.inj isRules).symm
  subst rulesAre
  obtain ⟨rfl, rfl⟩ : proposed = [[.integer value]] ∧ after = engine := by
    cases ran
    exact ⟨rfl, rfl⟩
  refine ⟨fun row last passed => ?_, fun _ _ _ => trivial⟩
  obtain rfl : row = [.integer value] := by
    simp only [Stateful.bind_apply, Engine.check, calm] at passed
    cases passed
    rfl
  cases isBytes : Engine.primaryKeyBytes wideKey [.integer value] with
  | ok bytes => exact ⟨⟨bytes, isBytes⟩, apart⟩
  | error error => simp [isBytes, Except.toOption] at encodes

theorem wideStored_run : KeyedRun plainHost wide wideKey wideStored [[.integer (2 ^ 53)]] := by
  have start : KeyedRun plainHost wide wideKey wideEngine [] := .empty (by decide +kernel)
  have run := start.statement [] (replaceWith (2 ^ 53))
    (replaceWith_addresses (2 ^ 53) wideEngine (by decide +kernel))
    (replaceWith_storable _ (by decide +kernel) rfl (by decide +kernel) nofun)
  have rows : ((replaceWith (2 ^ 53)).reference plainHost [] wide wideKey (wideEngine, [])).2.2 =
      [[.integer (2 ^ 53)]] := by decide +kernel
  exact rows ▸ run

/-- The table is a map after a second row. -/
theorem wideStored_isMap : IsMap plainHost wide wideKey
    ((replaceWith 7).run plainHost [] wideStored).2 [[.integer 7], [.integer (2 ^ 53)]] := by
  have apart : RoundingKeeps wideKey [.integer 7] [.integer (2 ^ 53)] := by
    unfold RoundingKeeps
    decide +kernel
  have run := wideStored_run.statement [] (replaceWith 7)
    (replaceWith_addresses 7 wideStored (by decide +kernel))
    (replaceWith_storable 7 (by decide +kernel) (by decide +kernel) (by decide +kernel)
      (by simpa using apart))
  have rows : ((replaceWith 7).reference plainHost [] wide wideKey
      (wideStored, [[.integer (2 ^ 53)]])).2.2 = [[.integer 7], [.integer (2 ^ 53)]] := by
    decide +kernel
  exact keyedRun_isMap wide_keyed plainHost_keepsCells (rows ▸ run)

/-- 2⁵³ + 1 is another key and takes the row of 2⁵³ away. -/
theorem replace_loses_row : KeyedRun plainHost wide wideKey wideStored [[.integer (2 ^ 53)]] ∧
      (replaceWith (2 ^ 53 + 1)).Addresses plainHost [] wide wideStored ∧
      ((((replaceWith (2 ^ 53 + 1)).run plainHost [] wideStored).2.storage.keyedRows "t").map
        Prod.snd) = [[.integer (2 ^ 53 + 1)]] ∧
      ((replaceWith (2 ^ 53 + 1)).reference plainHost [] wide wideKey
        (wideStored, [[.integer (2 ^ 53)]])).2.2 =
          [[.integer (2 ^ 53)], [.integer (2 ^ 53 + 1)]] :=
  ⟨wideStored_run, replaceWith_addresses _ _ (by decide +kernel), by decide +kernel,
    by decide +kernel⟩

end InlaySql.Sql
