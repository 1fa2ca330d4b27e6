import InlaySql.Lib.Stateful
import InlaySql.Lib.Transition

/-!
# The session's copy of the transaction flag

The engine knows whether a transaction is open, and a session keeps a copy of the answer:
it decides whether `COMMIT` and `ROLLBACK` reach the engine at all. The copy is set where
the session itself opens and ends transactions, and read back from the engine after a
statement that succeeded. A statement that fails returns before it is read back, and a
commit is taken to have ended the transaction whatever stopped it.

Every call that can fail is given its outcome beforehand, by the place it is made from, so
a run of commands ranges over every pattern of failures.
-/

namespace InlaySql.Server.Transactions

open Lib

/-- The errors of the engine, as far as the code tells them apart. -/
inductive EngineError where
  | conflict
  | stale (message : String)
  | transaction (message : String)
  | other (message : String)
  deriving DecidableEq, Repr

/-- `<Error as Display>::fmt`; `other` holds the text it is rendered as. -/
def EngineError.text : EngineError -> String
  | .conflict => "write conflict: another writer committed first, nothing was written"
  | .stale message => s!"stale prepared statement: {message}"
  | .transaction message => s!"transaction error: {message}"
  | .other message => message

/-- The outcomes of the calls one engine operation makes, `none` where a call succeeds. -/
structure Faults where
  /-- Reading the committed state before a statement outside a transaction. -/
  refresh : Option EngineError := none
  /-- The checks before the statement runs: its parameters, its plan, the room left. -/
  refused : Option EngineError := none
  /-- The statement itself, after it buffered so many of its rows. -/
  stops : Option (Nat × EngineError) := none
  /-- Reading the committed state a new transaction is pinned to. -/
  pin : Option EngineError := none
  /-- Stepping the write version before a commit. -/
  bump : Option EngineError := none
  /-- The storage commit. -/
  flush : Option EngineError := none
  /-- Reading the counters back after a storage commit. -/
  counters : Option EngineError := none
  /-- Loading the engine again from the committed state. -/
  reload : Option EngineError := none
  /-- The first statement that fails when the log is replayed. -/
  replay : Option EngineError := none
  deriving DecidableEq, Repr

/-- Stop if the call fails. -/
def attempt {σ : Type} : Option EngineError -> Stateful σ EngineError Unit
  | none => pure ()
  | some error => Stateful.fail error

/-! ## The engine -/

/-- What the storage holds: the rows committed, and those written since. -/
structure Store (Row : Type) where
  committed : List Row
  buffered : List Row
  deriving DecidableEq, Repr

/-- A savepoint, with the length the log had when it was set. -/
structure SavepointFrame where
  name : String
  logPosition : Nat
  deriving DecidableEq, Repr

/-- The engine's transaction: the rows each statement of the log wrote, and the savepoints,
the innermost first. -/
structure Engine (Row : Type) where
  store : Store Row
  inTransaction : Bool
  transactionIsImplicit : Bool
  transactionLog : List (List Row)
  savepoints : List SavepointFrame
  deriving DecidableEq, Repr

/-- What a statement does, once it is planned. `read` says whether its rows are written to
the client as they are produced. -/
inductive Plan (Row : Type) where
  | read (streamed : Bool)
  | write (rows : List Row)
  | begin
  | commit
  | rollback
  | savepoint (name : String)
  | releaseSavepoint (name : String)
  | rollbackToSavepoint (name : String)
  deriving DecidableEq, Repr

variable {Row : Type}

/-- A part of an engine operation. -/
abbrev EngineRun (Row α : Type) := Stateful (Engine Row) EngineError α

namespace Engine

/-- Keep rows for the next storage commit. -/
def buffer (rows : List Row) (self : Engine Row) : Engine Row :=
  { self with store := { self.store with buffered := self.store.buffered ++ rows } }

/-- `Storage::rollback`: forget the rows since the last commit. -/
def dropBuffered (self : Engine Row) : Engine Row :=
  { self with store := { self.store with buffered := [] } }

/-- A storage commit that succeeds. -/
def flushBuffered (self : Engine Row) : Engine Row :=
  { self with store := ⟨self.store.committed ++ self.store.buffered, []⟩ }

/-- The transaction is over, its log and its savepoints with it. -/
def endTransaction (self : Engine Row) : Engine Row :=
  { self with
    inTransaction := false
    transactionIsImplicit := false
    transactionLog := []
    savepoints := [] }

def requireTransaction (what : String) : EngineRun Row Unit := do
  if <- Stateful.gets (·.inTransaction) then pure ()
  else Stateful.fail (.transaction s!"{what} with no transaction open")

def begin (faults : Faults) : EngineRun Row Unit := do
  if <- Stateful.gets (·.inTransaction) then
    Stateful.fail (.transaction "a transaction is already open")
  else
    attempt faults.pin
    Stateful.change fun self => { self with
      inTransaction := true, transactionIsImplicit := false, transactionLog := [],
      savepoints := [] }

/-- `commit_storage`: a conflict has already dropped the rows. -/
def commitStorage (faults : Faults) : EngineRun Row Unit :=
  match faults.flush with
  | none => do
      Stateful.change flushBuffered
      attempt faults.counters
  | some .conflict => do
      Stateful.change dropBuffered
      attempt faults.reload
      Stateful.fail .conflict
  | some error => Stateful.fail error

/-- What a commit answers, once the transaction is over. -/
def afterCommit : Except EngineError Unit -> EngineRun Row Unit
  | .ok () => pure ()
  | .error .conflict => Stateful.fail .conflict
  | .error error => do
      Stateful.change dropBuffered
      Stateful.fail error

def commit (faults : Faults) : EngineRun Row Unit := do
  requireTransaction "commit"
  attempt faults.bump
  let result <- (commitStorage faults).outcome
  Stateful.change endTransaction
  afterCommit result

def rollback (faults : Faults) : EngineRun Row Unit := do
  requireTransaction "rollback"
  Stateful.change endTransaction
  Stateful.change dropBuffered
  attempt faults.reload

def savepoint (name : String) (faults : Faults) : EngineRun Row Unit := do
  if <- Stateful.gets (·.inTransaction) then pure ()
  else
    begin faults
    Stateful.change fun self => { self with transactionIsImplicit := true }
  Stateful.change fun self => { self with
    savepoints := ⟨name, self.transactionLog.length⟩ :: self.savepoints }

/-- The savepoints from the innermost one of this name outwards. -/
def outwardFrom (name : String) (self : Engine Row) : List SavepointFrame :=
  self.savepoints.dropWhile fun frame => frame.name ≠ name

def noSuchSavepoint (name : String) : EngineError := .transaction s!"no such savepoint: {name}"

def releaseSavepoint (name : String) (faults : Faults) : EngineRun Row Unit := do
  match <- Stateful.gets (outwardFrom name) with
  | [] => Stateful.fail (noSuchSavepoint name)
  | _ :: outer => do
      Stateful.change fun self => { self with savepoints := outer }
      if outer.isEmpty && (<- Stateful.gets (·.transactionIsImplicit)) then commit faults
      else pure ()

def replayTransactionUpTo (targetLen : Nat) (faults : Faults) : EngineRun Row Unit := do
  let replayed <- Stateful.gets fun self => self.transactionLog.take targetLen
  Stateful.change dropBuffered
  attempt faults.reload
  match faults.replay with
  | none =>
    Stateful.change fun self => { self.buffer replayed.flatten with transactionLog := replayed }
  | some error => do
      Stateful.change fun self => self.endTransaction.dropBuffered
      let cause := error.text
      Stateful.fail (.transaction ("ROLLBACK TO SAVEPOINT could not reconstruct the " ++
        s!"transaction and aborted it entirely: {cause}"))

def rollbackToSavepoint (name : String) (faults : Faults) : EngineRun Row Unit := do
  match <- Stateful.gets (outwardFrom name) with
  | [] => Stateful.fail (noSuchSavepoint name)
  | frame :: outer => do
      Stateful.change fun self => { self with savepoints := frame :: outer }
      replayTransactionUpTo frame.logPosition faults

def discardFailedStatement (self : Engine Row) : Engine Row :=
  if self.inTransaction then self else self.dropBuffered

/-- What a statement answers, once its own commit has. -/
def afterWrite : Except EngineError Unit -> EngineRun Row Unit
  | .ok () => pure ()
  | .error error => do
      Stateful.change discardFailedStatement
      Stateful.fail error

/-- A statement that writes, outside a transaction with the commit that ends it. -/
def write (rows : List Row) (faults : Faults) : EngineRun Row Unit :=
  match faults.stops with
  | some (count, error) => do
      Stateful.change (buffer (rows.take count))
      Stateful.change discardFailedStatement
      Stateful.fail error
  | none => do
      Stateful.change (buffer rows)
      if <- Stateful.gets (·.inTransaction) then
        Stateful.change fun self => { self with transactionLog := self.transactionLog ++ [rows] }
      else
        let result <- (do attempt faults.bump; commitStorage faults : EngineRun Row Unit).outcome
        afterWrite result

/-- The operation a plan is. -/
def perform (plan : Plan Row) (faults : Faults) : EngineRun Row Unit :=
  match plan with
  | .read _ => attempt (faults.stops.map Prod.snd)
  | .write rows => write rows faults
  | .begin => begin faults
  | .commit => commit faults
  | .rollback => rollback faults
  | .savepoint name => savepoint name faults
  | .releaseSavepoint name => releaseSavepoint name faults
  | .rollbackToSavepoint name => rollbackToSavepoint name faults

/-- `refresh_snapshot`, which does nothing in a transaction. -/
def refreshSnapshot (faults : Faults) : EngineRun Row Unit := do
  if <- Stateful.gets (·.inTransaction) then pure () else attempt faults.refresh

def run (plan : Plan Row) (faults : Faults) : EngineRun Row Unit := do
  refreshSnapshot faults
  attempt faults.refused
  perform plan faults

end Engine

/-! ## The session -/

structure Session where
  autocommit : Bool
  inTransaction : Bool
  deriving DecidableEq, Repr

structure Connection (Row : Type) where
  session : Session
  engine : Engine Row
  deriving DecidableEq, Repr

/-- A part of a command. -/
abbrev Command.Run (Row α : Type) := Stateful (Connection Row) EngineError α

/-- How a statement reaches the engine: whether it is counted, planned and authorised, and
whether its plan turns out stale and is made again. -/
structure Sent where
  prepared : Option EngineError := none
  replanned : Option (Option EngineError) := none
  faults : Faults := {}
  deriving DecidableEq, Repr

/-- What `shim::intercept` makes of a command. A command that is refused before it has any
effect, or that the shim answers itself, is `answered`. -/
inductive Command (Row : Type) where
  | answered (fault : Option EngineError)
  | begin (closing opening : Faults)
  | commit (closing : Faults)
  | rollback (closing : Faults)
  | setAutocommit (on : Bool) (closing : Faults)
  /-- An account statement, with the writes to the account tables it makes. -/
  | account (closing : Faults) (writes : List (List Row × Faults))
  /-- `OPTIMIZE TABLE`, with what each table's build writes. -/
  | optimize (closing : Faults) (builds : List (List Row × Faults))
  /-- One statement of the engine, sent as text or prepared. -/
  | statement (opening : Faults) (plan : Plan Row) (sent : Sent)
  /-- A statement of MySQL's that became several of the engine's. -/
  | expanded (opening : Faults) (statements : List (List Row × Sent))
  deriving DecidableEq, Repr

namespace Connection

/-- Run an operation of the engine. -/
def onEngine {α : Type} (operation : EngineRun Row α) : Command.Run Row α := fun self =>
  ((operation self.engine).1, { self with engine := (operation self.engine).2 })

/-- Note what the session takes the transaction to be. -/
def note (inTransaction : Bool) (self : Connection Row) : Connection Row :=
  { self with session := { self.session with inTransaction } }

def beginImplicit (faults : Faults) : Command.Run Row Unit := do
  let session <- Stateful.gets (·.session)
  if !session.autocommit && !session.inTransaction then
    onEngine (Engine.begin faults)
    Stateful.change (note true)
  else pure ()

def commit (faults : Faults) : Command.Run Row Unit := do
  if <- Stateful.gets (·.session.inTransaction) then
    let result <- (onEngine (Engine.commit faults)).outcome
    Stateful.change (note false)
    Stateful.ofExcept result
  else pure ()

/-- `ROLLBACK`. -/
def rollback (faults : Faults) : Command.Run Row Unit := do
  if <- Stateful.gets (·.session.inTransaction) then
    onEngine (Engine.rollback faults)
    Stateful.change (note false)
  else pure ()

/-- Note what the client set `autocommit` to. -/
def noteAutocommit (autocommit : Bool) (self : Connection Row) : Connection Row :=
  { self with session := { self.session with autocommit } }

/-- The part of `finish` that reads the flag back. -/
def finish : Command.Run Row Unit :=
  Stateful.change fun self => self.note self.engine.inTransaction

/-- Plan, authorise and execute one statement, with the plan made again when it is stale. -/
def execute (plan : Plan Row) (sent : Sent) : Command.Run Row Unit := do
  attempt sent.prepared
  attempt (sent.replanned.getD none)
  onEngine (Engine.run plan sent.faults)

/-- `run_on_engine` and `run_plan`. -/
def runOnEngine (opening : Faults) (plan : Plan Row) (sent : Sent) : Command.Run Row Unit := do
  beginImplicit opening
  execute plan sent
  match plan with
  | .read true => pure ()
  | _ => finish

/-- One turn of the loop of `run_statements_on_engine`. -/
def runStatement (statement : List Row × Sent) : Command.Run Row Unit := do
  execute (.write statement.1) statement.2
  finish

/-- `run_statements_on_engine`, of several statements. -/
def runStatementsOnEngine (opening : Faults) (statements : List (List Row × Sent)) :
    Command.Run Row Unit := do
  beginImplicit opening
  statements.forM runStatement

/-- Statements that reach the engine past the session. -/
def runInternally (writes : List (List Row × Faults)) : Command.Run Row Unit :=
  writes.forM fun (rows, faults) => onEngine (Engine.run (.write rows) faults)

/-- `Connection::run`. -/
def run : Command Row -> Command.Run Row Unit
  | .answered fault => attempt fault
  | .begin closing opening => do
      commit closing
      onEngine (Engine.begin opening)
      Stateful.change (note true)
  | .commit closing => commit closing
  | .rollback closing => rollback closing
  | .setAutocommit true closing => do
      commit closing
      Stateful.change (noteAutocommit true)
  | .setAutocommit false _ => Stateful.change (noteAutocommit false)
  | .account closing writes => do
      commit closing
      runInternally writes
  | .optimize closing builds => do
      commit closing
      runInternally builds
  | .statement opening plan sent => runOnEngine opening plan sent
  | .expanded opening statements => runStatementsOnEngine opening statements

end Connection

end InlaySql.Server.Transactions
