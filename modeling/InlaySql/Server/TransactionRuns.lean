import InlaySql.Server.TransactionFlag

/-!
# Runs of a session

A run is any sequence of commands, each with any pattern of failures. As long as no command
ends a transaction behind the session's back, and no commit stops before it has ended one,
the copy of the flag is right after every command. What the client is told is then true:
a write reported outside a transaction is stored, and a `COMMIT` or `ROLLBACK` that answers
has ended the transaction.
-/

namespace InlaySql.Server.Transactions

open Lib

open Stateful (bind_apply bind_of_error bind_of_ok gets_apply)
open Engine (Quiet Framed EndsUnnoticed)

variable {Row : Type}

namespace Connection

/-- The session's copy of the flag is right. -/
def Agrees (self : Connection Row) : Prop := self.session.inTransaction = self.engine.inTransaction

/-- The connection as the first statement of a command finds it, with the transaction that
autocommit off opens. -/
def found (self : Connection Row) : Connection Row :=
  if !self.session.autocommit && !self.session.inTransaction then
    { session := { self.session with inTransaction := true }
      engine := ⟨self.engine.store, true, false, [], []⟩ }
  else self

/-- The transaction autocommit off opens can be pinned, and the statement planned. -/
def Reaches (opening : Faults) (sent : Sent) (self : Connection Row) : Prop :=
  (self.session.autocommit = false -> self.session.inTransaction = false -> opening.pin = none) ∧
    sent.prepared = none ∧ sent.replanned.getD none = none

/-- The command does not part the session from the engine. -/
def Clean (self : Connection Row) : Command Row -> Prop
  | .begin closing _ | .commit closing | .account closing _ | .optimize closing _ =>
    self.session.inTransaction = true -> closing.bump = none
  | .setAutocommit on closing =>
    on = true -> self.session.inTransaction = true -> closing.bump = none
  | .rollback closing => self.session.inTransaction = true -> closing.reload = none
  | .statement opening plan sent =>
    self.Reaches opening sent -> ¬ EndsUnnoticed plan sent.faults self.found.engine
  | .answered _ | .expanded .. => True

/-- What a command that succeeds has told the client: a write outside a transaction is
stored, and a `COMMIT` or a `ROLLBACK` has ended the transaction. -/
def Honest (self : Connection Row) (command : Command Row) : Prop :=
  (run command self).1 = .ok () ->
    match command with
    | .commit _ => (run command self).2.engine.inTransaction = false ∧
        (run command self).2.engine.store =
          ⟨self.engine.store.committed ++ self.engine.store.buffered, []⟩
    | .rollback _ => (run command self).2.engine.inTransaction = false ∧
        (run command self).2.engine.store = ⟨self.engine.store.committed, []⟩
    | .statement _ (.write rows) _ => (run command self).2.session.inTransaction = false ->
        (run command self).2.engine.store = ⟨self.engine.store.committed ++ rows, []⟩
    | .expanded _ statements => (run command self).2.session.inTransaction = false ->
        (run command self).2.engine.store =
          ⟨self.engine.store.committed ++ (statements.map Prod.fst).flatten, []⟩
    | _ => True

/-! ## Commits -/

@[simp] theorem onEngine_apply {α : Type} (operation : EngineRun Row α) (self : Connection Row) :
    onEngine operation self =
      ((operation self.engine).1, { self with engine := (operation self.engine).2 }) := rfl

variable (faults : Faults) {self : Connection Row} (plan : Plan Row) (sent : Sent)
  {rest : Command.Run Row Unit} (command : Command Row)

theorem commit_closed (closed : self.session.inTransaction = false) :
    commit faults self = (.ok (), self) := by
  unfold commit
  rw [bind_of_ok (gets_apply _), closed]
  rfl

theorem commit_opened (opened : self.session.inTransaction = true) :
    commit faults self = ((Engine.commit faults self.engine).1,
      note false { self with engine := (Engine.commit faults self.engine).2 }) := by
  unfold commit
  rw [bind_of_ok (gets_apply _), opened]
  rfl

/-- After a commit the session is outside a transaction, and it is right unless the commit
stopped at the version. -/
theorem commit_agrees (agrees : self.Agrees) :
    (commit faults self).2.session.inTransaction = false ∧ ((commit faults self).2.Agrees ↔
        (self.session.inTransaction = true -> faults.bump = none)) ∧
      ((commit faults self).1 = .ok () -> (commit faults self).2.Agrees) := by
  cases opened : self.session.inTransaction with
  | false => simp [commit_closed faults opened, opened, agrees]
  | true =>
    have engineOpened : self.engine.inTransaction = true := agrees.symm.trans opened
    rw [commit_opened faults opened]
    cases bumped : faults.bump with
    | some error =>
      rw [Engine.commit_stopped engineOpened bumped]
      simp [Agrees, note, engineOpened]
    | none =>
      have ends := Engine.commit_ends engineOpened bumped
      simp [Agrees, note, ends.closed.1]

theorem commit_stores {faults : Faults} (agrees : self.Agrees) (quiet : self.engine.Quiet)
    (done : (commit faults self).1 = .ok ()) :
    (commit faults self).2.engine.inTransaction = false ∧ (commit faults self).2.engine.store =
        ⟨self.engine.store.committed ++ self.engine.store.buffered, []⟩ := by
  cases opened : self.session.inTransaction with
  | false =>
    have engineClosed : self.engine.inTransaction = false := agrees.symm.trans opened
    have nothing := (quiet engineClosed).1
    rw [commit_closed faults opened]
    refine ⟨engineClosed, ?_⟩
    rw [nothing, List.append_nil, <- nothing]
  | true =>
    have engineOpened : self.engine.inTransaction = true := agrees.symm.trans opened
    rw [commit_opened faults opened] at done ⊢
    cases bumped : faults.bump with
    | some error =>
      rw [Engine.commit_stopped engineOpened bumped] at done
      cases done
    | none =>
      have ends := Engine.commit_ends engineOpened bumped
      exact ⟨ends.closed.1, ends.durable done⟩

/-! ## Rollbacks -/

theorem rollback_closed (closed : self.session.inTransaction = false) :
    rollback faults self = (.ok (), self) := by
  unfold rollback
  rw [bind_of_ok (gets_apply _), closed]
  rfl

theorem rollback_opened (agrees : self.Agrees) (opened : self.session.inTransaction = true) :
    (rollback faults self).2.engine = self.engine.endTransaction.dropBuffered ∧
      ((rollback faults self).1 = .ok () ↔ faults.reload = none) ∧
      ((rollback faults self).2.session.inTransaction = false ↔ faults.reload = none) := by
  have ends := @Engine.rollback_ends Row faults self.engine (agrees.symm.trans opened)
  unfold rollback
  rw [bind_of_ok (gets_apply _), opened, if_pos rfl, <- ends.ok_iff,
    bind_apply, onEngine_apply]
  cases answered : (Engine.rollback faults self.engine).1 with
  | ok done => exact ⟨ends.state, by simp, by simp [note]⟩
  | error error => exact ⟨ends.state, by simp, by simp [opened]⟩

/-! ## Statements -/

theorem found_agrees (agrees : self.Agrees) : self.found.Agrees := by
  unfold found
  split
  · rfl
  · exact agrees

theorem beginImplicit_eq (agrees : self.Agrees) :
    (beginImplicit faults self = (.ok (), self.found) ∧
      (self.session.autocommit = false → self.session.inTransaction = false → faults.pin = none)) ∨
    (∃ error, beginImplicit faults self = (.error error, self) ∧
      self.session.autocommit = false ∧ self.session.inTransaction = false ∧
        faults.pin = some error) := by
  unfold beginImplicit found
  rw [bind_of_ok (gets_apply _)]
  cases automatic : self.session.autocommit with
  | true => exact .inl ⟨rfl, fun off => by cases off⟩
  | false =>
    cases opened : self.session.inTransaction with
    | true => exact .inl ⟨rfl, fun _ closed => by cases closed⟩
    | false =>
      have engineClosed : self.engine.inTransaction = false := agrees.symm.trans opened
      have begun := Engine.begin_eq faults self.engine
      rw [engineClosed] at begun
      simp only [Bool.not_false, Bool.and_self, if_true]
      cases pinned : faults.pin with
      | some error =>
        rw [pinned] at begun
        refine .inr ⟨error, ?_, by simp⟩
        rw [bind_apply, onEngine_apply, begun]
        rfl
      | none =>
        rw [pinned] at begun
        refine .inl ⟨?_, fun _ _ => rfl⟩
        rw [bind_apply, onEngine_apply, begun]
        rfl

theorem execute_eq (self : Connection Row) :
    (∃ error, execute plan sent self = (.error error, self) ∧
      ¬ (sent.prepared = none ∧ sent.replanned.getD none = none)) ∨
    (execute plan sent self = onEngine (Engine.run plan sent.faults) self ∧
      sent.prepared = none ∧ sent.replanned.getD none = none) := by
  unfold execute
  cases prepared : sent.prepared with
  | some error => exact .inl ⟨error, rfl, fun both => by cases both.1⟩
  | none =>
    cases replanned : sent.replanned.getD none with
    | some error => exact .inl ⟨error, rfl, fun both => by cases both.2⟩
    | none => exact .inr ⟨rfl, rfl, rfl⟩

theorem run_read (streamed : Bool) (faults : Faults) (engine : Engine Row) :
    (Engine.run (.read streamed) faults engine).2 = engine := by
  rw [Engine.run_eq]
  split
  · rfl
  · rfl
  · unfold Engine.perform attempt
    split <;> rfl

/-- A statement parts the session from the engine exactly when it ends the transaction
and fails. -/
theorem runOnEngine_agrees (opening : Faults) (plan : Plan Row) (sent : Sent)
    (agrees : self.Agrees) :
    (runOnEngine opening plan sent self).2.Agrees ↔
      (self.Reaches opening sent -> ¬ EndsUnnoticed plan sent.faults self.found.engine) := by
  have foundAgrees := found_agrees agrees
  unfold runOnEngine Reaches
  obtain ⟨began, pinned⟩ | ⟨error, began, off, closed, unpinned⟩ := beginImplicit_eq opening agrees
  · rw [bind_of_ok began]
    obtain ⟨error, stopped, unreached⟩ | ⟨executed, reached⟩ := execute_eq plan sent self.found
    · rw [bind_of_error stopped]
      exact ⟨fun _ reaches => absurd reaches.2 unreached, fun _ => foundAgrees⟩
    · rw [forall_prop_of_true ⟨pinned, reached⟩, bind_apply, executed, onEngine_apply]
      cases ran : (Engine.run plan sent.faults self.found.engine).1 with
      | error error =>
        have moved := Engine.run_failed ran
        rw [<- moved]
        exact ⟨fun same => same.symm.trans foundAgrees, fun same => foundAgrees.trans same.symm⟩
      | ok done =>
        have noticed : ¬ EndsUnnoticed plan sent.faults self.found.engine := fun ends =>
          Engine.endsUnnoticed_fails ends ran
        refine iff_of_true ?_ noticed
        simp only
        split
        · rw [run_read]
          exact foundAgrees
        · rfl
  · rw [bind_of_error began]
    exact ⟨fun _ reaches => absurd ((reaches.1 off closed).symm.trans unpinned) (by simp),
      fun _ => agrees⟩

/-! ## Writes -/

/-- The statement was a write, and it left the flag as it was; outside a transaction its
rows are stored. -/
structure Wrote (rows : List Row) (before : Connection Row)
    (outcome : Except EngineError Unit × Connection Row) : Prop where
  agrees : outcome.2.Agrees
  flag : outcome.2.engine.inTransaction = before.engine.inTransaction
  quiet : outcome.2.engine.Quiet
  stored : outcome.1 = .ok () -> before.engine.inTransaction = false ->
    outcome.2.engine.store = ⟨before.engine.store.committed ++ rows, []⟩

theorem run_write (rows : List Row) (faults : Faults) {engine : Engine Row} (quiet : engine.Quiet) :
    (Engine.run (.write rows) faults engine).2.inTransaction = engine.inTransaction ∧
      ((Engine.run (.write rows) faults engine).1 = .ok () -> engine.inTransaction = false ->
        (Engine.run (.write rows) faults engine).2.store =
          ⟨engine.store.committed ++ rows, []⟩) := by
  rw [Engine.run_eq]
  split
  · exact ⟨rfl, fun done => by cases done⟩
  · exact ⟨rfl, fun done => by cases done⟩
  · refine ⟨(Engine.write_framed rows faults engine ⟨rfl, rfl⟩).1, fun done closed => ?_⟩
    obtain ⟨nothing, stored⟩ := Engine.write_closed rows faults closed (quiet closed).1
    exact congrArg₂ Store.mk (stored done) nothing

theorem execute_write (rows : List Row) (sent : Sent) (agrees : self.Agrees)
    (quiet : self.engine.Quiet) : Wrote rows self (execute (.write rows) sent self) := by
  obtain ⟨error, stopped, -⟩ | ⟨executed, -⟩ := execute_eq (.write rows) sent self
  · rw [stopped]
    exact ⟨agrees, rfl, quiet, fun done => by cases done⟩
  · have wrote := run_write rows sent.faults quiet
    rw [executed]
    exact ⟨agrees.trans wrote.1.symm, wrote.1, Engine.run_quiet _ _ _ quiet, wrote.2⟩

theorem runStatement_wrote (statement : List Row × Sent) (agrees : self.Agrees)
    (quiet : self.engine.Quiet) : Wrote statement.1 self (runStatement statement self) := by
  have wrote := execute_write statement.1 statement.2 agrees quiet
  unfold runStatement
  cases ran : execute (.write statement.1) statement.2 self with
  | mk answer between =>
    rw [ran] at wrote
    cases answer with
    | error error =>
      rw [bind_of_error ran]
      exact wrote
    | ok done =>
      rw [bind_of_ok ran]
      exact ⟨rfl, wrote.flag, wrote.quiet, wrote.stored⟩

theorem statements_wrote (statements : List (List Row × Sent)) (agrees : self.Agrees)
    (quiet : self.engine.Quiet) :
    Wrote (statements.map Prod.fst).flatten self
      ((statements.forM runStatement : Command.Run Row Unit) self) := by
  induction statements generalizing self with
  | nil =>
    refine ⟨agrees, rfl, quiet, fun _ closed => ?_⟩
    exact congrArg₂ Store.mk (List.append_nil _).symm (quiet closed).1
  | cons statement statements ih =>
    have first := runStatement_wrote statement agrees quiet
    change Wrote _ self ((runStatement statement >>= fun _ => statements.forM runStatement) self)
    cases ran : runStatement statement self with
    | mk answer between =>
      rw [ran] at first
      cases answer with
      | error error =>
        rw [bind_of_error ran]
        exact ⟨first.agrees, first.flag, first.quiet, fun done => by cases done⟩
      | ok done =>
        have later := ih first.agrees first.quiet
        rw [bind_of_ok ran]
        refine ⟨later.agrees, later.flag.trans first.flag, later.quiet, fun ended closed => ?_⟩
        rw [later.stored ended (first.flag.trans closed), first.stored rfl closed]
        simp

theorem found_quiet (quiet : self.engine.Quiet) : self.found.engine.Quiet := by
  unfold found
  split
  · exact fun closed => by cases closed
  · exact quiet

theorem found_closed (closed : self.found.engine.inTransaction = false) : self.found = self := by
  unfold found at closed ⊢
  split at closed
  · cases closed
  · rename_i unopened
    rw [if_neg unopened]

theorem Wrote.reported {rows : List Row} {opening : Faults} (agrees : self.Agrees)
    (wrote : Wrote rows self.found (rest self.found))
    (done : ((beginImplicit opening >>= fun _ => rest) self).1 = .ok ())
    (closed : ((beginImplicit opening >>= fun _ => rest) self).2.session.inTransaction = false) :
    ((beginImplicit opening >>= fun _ => rest) self).2.engine.store =
      ⟨self.engine.store.committed ++ rows, []⟩ := by
  obtain ⟨began, -⟩ | ⟨error, began, -⟩ := beginImplicit_eq opening agrees
  · rw [bind_of_ok began] at done closed ⊢
    have foundClosed : self.found.engine.inTransaction = false :=
      wrote.flag.symm.trans (wrote.agrees.symm.trans closed)
    rw [wrote.stored done foundClosed, found_closed foundClosed]
  · rw [bind_of_error began] at done
    cases done

/-! ## Commands -/

theorem runInternally_agrees (writes : List (List Row × Faults)) (agrees : self.Agrees)
    (quiet : self.engine.Quiet) : (runInternally writes self).2.Agrees := by
  have kept : Stateful.Keeps (fun self : Connection Row => self.Agrees ∧ self.engine.Quiet)
      (runInternally writes) := by
    refine .forM (fun item self holds => ?_) writes
    have wrote := run_write item.1 item.2 holds.2
    exact ⟨holds.1.trans wrote.1.symm, Engine.run_quiet _ _ _ holds.2⟩
  exact (kept self ⟨agrees, quiet⟩).1

theorem commit_quiet (quiet : self.engine.Quiet) : (commit faults self).2.engine.Quiet := by
  cases opened : self.session.inTransaction with
  | false => rwa [commit_closed faults opened]
  | true =>
    rw [commit_opened faults opened]
    exact Engine.perform_quiet .commit faults self.engine quiet

theorem runInternally_quiet (writes : List (List Row × Faults)) :
    Stateful.Keeps (fun self : Connection Row => self.engine.Quiet) (runInternally writes) :=
  .forM (fun item _ quiet => Engine.run_quiet (.write item.1) item.2 _ quiet) writes

theorem execute_quiet :
    Stateful.Keeps (fun self : Connection Row => self.engine.Quiet) (execute plan sent) :=
  (Engine.attempt_keeps _).bind fun _ => (Engine.attempt_keeps _).bind fun _ =>
    fun _ quiet => Engine.run_quiet _ _ _ quiet

theorem beginImplicit_quiet :
    Stateful.Keeps (fun self : Connection Row => self.engine.Quiet) (beginImplicit faults) := by
  refine .bind (.gets _) fun session => ?_
  split
  · refine .bind (fun self quiet => ?_) fun _ => .change fun _ quiet => quiet
    exact Engine.perform_quiet .begin faults self.engine quiet
  · exact .pure ()

theorem run_quiet :
    Stateful.Keeps (fun self : Connection Row => self.engine.Quiet) (run command) := by
  have commits (faults : Faults) :
      Stateful.Keeps (fun self : Connection Row => self.engine.Quiet) (commit faults) :=
    fun _ => commit_quiet faults
  cases command with
  | answered fault => exact Engine.attempt_keeps fault
  | begin closing opening =>
    refine (commits closing).bind fun _ => .bind (fun self quiet => ?_) fun _ =>
      .change fun _ quiet => quiet
    exact Engine.perform_quiet .begin opening self.engine quiet
  | commit closing => exact commits closing
  | rollback closing =>
    refine Stateful.Keeps.bind (.gets _) fun opened => ?_
    split
    · refine .bind (fun self quiet => ?_) fun _ => .change fun _ quiet => quiet
      exact Engine.perform_quiet .rollback closing self.engine quiet
    · exact .pure ()
  | setAutocommit on closing =>
    cases on with
    | true => exact (commits closing).bind fun _ => .change fun _ quiet => quiet
    | false => exact .change fun _ quiet => quiet
  | account closing writes => exact (commits closing).bind fun _ => runInternally_quiet writes
  | optimize closing builds => exact (commits closing).bind fun _ => runInternally_quiet builds
  | statement opening plan sent =>
    refine (beginImplicit_quiet opening).bind fun _ => (execute_quiet plan sent).bind fun _ => ?_
    split
    · exact .pure ()
    · exact .change fun _ quiet => quiet
  | expanded opening statements =>
    refine (beginImplicit_quiet opening).bind fun _ => .forM (fun statement => ?_) statements
    exact (execute_quiet _ _).bind fun _ => .change fun _ quiet => quiet

/-- A command that begins with a commit and keeps a right copy right is right exactly when
the commit did not stop at the version. -/
theorem afterCommit_agrees {faults : Faults} (agrees : self.Agrees) (quiet : self.engine.Quiet)
    (kept : ∀ between : Connection Row, between.session.inTransaction = false -> between.Agrees ->
      between.engine.Quiet -> (rest between).2.Agrees) :
    ((commit faults >>= fun _ => rest) self).2.Agrees ↔
      (self.session.inTransaction = true -> faults.bump = none) := by
  obtain ⟨closed, right, done⟩ := commit_agrees faults agrees
  have stillQuiet := commit_quiet faults quiet
  cases ran : commit faults self with
  | mk answer between =>
    rw [ran] at closed right done stillQuiet
    cases answer with
    | error error =>
      rw [bind_of_error ran]
      exact right
    | ok value =>
      rw [bind_of_ok ran]
      exact iff_of_true (kept between closed (done rfl) stillQuiet) (right.mp (done rfl))

section

variable (agrees : self.Agrees) (quiet : self.engine.Quiet)

include agrees quiet

theorem run_agrees : (run command self).2.Agrees ↔ self.Clean command := by
  cases command with
  | answered fault =>
    have same : (run (.answered fault) self).2 = self := by
      cases fault <;> rfl
    rw [same]
    exact iff_of_true agrees trivial
  | begin closing opening =>
    refine afterCommit_agrees agrees quiet fun between closed right _ => ?_
    have engineClosed : between.engine.inTransaction = false := right.symm.trans closed
    have begun := Engine.begin_eq opening between.engine
    rw [engineClosed] at begun
    rw [bind_apply, onEngine_apply, begun]
    cases opening.pin with
    | none => rfl
    | some error => exact right
  | commit closing => exact (commit_agrees closing agrees).2.1
  | rollback closing =>
    change (rollback closing self).2.Agrees ↔
      (self.session.inTransaction = true -> closing.reload = none)
    cases opened : self.session.inTransaction with
    | false => simp [rollback_closed closing opened, agrees]
    | true =>
      obtain ⟨engine, -, noted⟩ := rollback_opened closing agrees opened
      rw [Agrees, engine, forall_prop_of_true rfl]
      exact noted
  | setAutocommit on closing =>
    cases on with
    | false => exact iff_of_true agrees fun on => by cases on
    | true =>
      have right : (run (.setAutocommit true closing) self).2.Agrees ↔
          (self.session.inTransaction = true -> closing.bump = none) :=
        afterCommit_agrees agrees quiet fun _ _ right _ => right
      exact right.trans ⟨fun bumped _ => bumped, fun bumped => bumped rfl⟩
  | account closing writes =>
    exact afterCommit_agrees agrees quiet fun between _ right stillQuiet =>
      runInternally_agrees writes right stillQuiet
  | optimize closing builds =>
    exact afterCommit_agrees agrees quiet fun between _ right stillQuiet =>
      runInternally_agrees builds right stillQuiet
  | statement opening plan sent => exact runOnEngine_agrees opening plan sent agrees
  | expanded opening statements =>
    refine iff_of_true ?_ trivial
    change ((beginImplicit opening >>= fun _ => statements.forM runStatement) self).2.Agrees
    obtain ⟨began, -⟩ | ⟨error, began, -⟩ := beginImplicit_eq opening agrees
    · rw [bind_of_ok began]
      exact (statements_wrote statements (found_agrees agrees) (found_quiet quiet)).agrees
    · rw [bind_of_error began]
      exact agrees

theorem run_honest : self.Honest command := by
  intro done
  cases command with
  | answered | begin | setAutocommit | account | optimize => trivial
  | commit closing => exact commit_stores agrees quiet done
  | rollback closing =>
    change (rollback closing self).2.engine.inTransaction = false ∧
      (rollback closing self).2.engine.store = ⟨self.engine.store.committed, []⟩
    cases opened : self.session.inTransaction with
    | false =>
      have engineClosed : self.engine.inTransaction = false := agrees.symm.trans opened
      rw [rollback_closed closing opened]
      exact ⟨engineClosed, congrArg (Store.mk _) (quiet engineClosed).1⟩
    | true =>
      rw [(rollback_opened closing agrees opened).1]
      exact ⟨rfl, rfl⟩
  | statement opening plan sent =>
    cases plan with
    | read | begin | commit | rollback | savepoint | releaseSavepoint | rollbackToSavepoint =>
      trivial
    | write rows =>
      intro closed
      exact Wrote.reported agrees
        (runStatement_wrote (rows, sent) (found_agrees agrees) (found_quiet quiet)) done closed
  | expanded opening statements =>
    intro closed
    exact Wrote.reported agrees
      (statements_wrote statements (found_agrees agrees) (found_quiet quiet)) done closed

end

end Connection

/-! ## Runs -/

open Connection

/-- A connection as the server opens it, over what others have committed. -/
def opened (committed : List Row) : Connection Row :=
  { session := ⟨true, false⟩, engine := ⟨⟨committed, []⟩, false, false, [], []⟩ }

/-- The runs of a session whose commands are all allowed. -/
def sessions (Row : Type) (allowed : Connection Row -> Command Row -> Prop) :
    System (Connection Row) (Command Row) where
  Initial self := ∃ committed, self = opened committed
  Step before command after := allowed before command ∧ after = (run command before).2

theorem sessions_invariant {commands : List (Command Row)} {before : Connection Row}
    (ran : (sessions Row Clean).Runs commands before) : before.Agrees ∧ before.engine.Quiet := by
  refine ran.invariant (fun _ self => self.Agrees ∧ self.engine.Quiet) ?_ ?_
  · rintro _ ⟨committed, rfl⟩
    exact ⟨rfl, fun _ => ⟨rfl, rfl⟩⟩
  · rintro _ self command _ ⟨agrees, quiet⟩ ⟨clean, rfl⟩
    exact ⟨(run_agrees command agrees quiet).mpr clean, run_quiet command self quiet⟩

/-- All through a run of clean commands the session is right about the engine, and a command
that succeeds has done what it says. The next command leaves the session right exactly when
it is clean. -/
theorem session_agrees {commands : List (Command Row)} {before : Connection Row}
    (ran : (sessions Row Clean).Runs commands before) :
    before.Agrees ∧ ∀ command,
      ((run command before).2.Agrees ↔ before.Clean command) ∧ before.Honest command := by
  obtain ⟨agrees, quiet⟩ := sessions_invariant ran
  exact ⟨agrees, fun command => ⟨run_agrees command agrees quiet, run_honest command agrees quiet⟩⟩

/-- `SAVEPOINT`, an `INSERT` and its `RELEASE`, which ends the transaction. -/
def savepointCommands (sent : Sent) : List (Command Nat) :=
  [.statement {} (.savepoint "a") {}, .statement {} (.write [1]) {},
    .statement {} (.releaseSavepoint "a") sent]

/-- The connection once the commands have been run, one after the other. -/
def afterCommands (commands : List (Command Row)) (self : Connection Row) : Connection Row :=
  commands.foldl (fun self command => (run command self).2) self

theorem session_agrees_savepoint : (sessions Nat Clean).Runs (savepointCommands {})
        (afterCommands (savepointCommands {}) (opened [])) ∧
      (afterCommands (savepointCommands {}) (opened [])).Agrees := by
  have ran : (sessions Nat Clean).Runs (savepointCommands {})
      (afterCommands (savepointCommands {}) (opened [])) := by
    refine ⟨opened [], ⟨[], rfl⟩, ?_⟩
    change (sessions Nat Clean).Steps _ ([] ++ [_] ++ [_] ++ [_]) _
    refine .step (.step (.step .refl ⟨fun _ ends => ends.2.2, rfl⟩)
      ⟨fun _ ends => ends.2.2, rfl⟩) ⟨fun _ ends => ?_, rfl⟩
    exact ends.2.2.2.2.2 ⟨rfl, rfl⟩
  exact ⟨ran, (session_agrees ran).1⟩

/-- Another connection commits first, and the `RELEASE` is refused. -/
def refused : Sent := { faults := { flush := some .conflict } }

theorem session_disagrees : (sessions Nat fun _ _ => True).Runs (savepointCommands refused)
        (afterCommands (savepointCommands refused) (opened [])) ∧
      (afterCommands (savepointCommands refused) (opened [])).session.inTransaction = true ∧
      (afterCommands (savepointCommands refused) (opened [])).engine.inTransaction = false := by
  refine ⟨⟨opened [], ⟨[], rfl⟩, ?_⟩, by decide +kernel⟩
  change (sessions Nat fun _ _ => True).Steps _ ([] ++ [_] ++ [_] ++ [_]) _
  exact .step (.step (.step .refl ⟨trivial, rfl⟩) ⟨trivial, rfl⟩) ⟨trivial, rfl⟩

end InlaySql.Server.Transactions
