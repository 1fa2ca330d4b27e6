import InlaySql.Server.Transactions

/-!
# When the session's copy is right

An engine call that fails usually leaves the transaction as it was. Five do not: the commit
of a released savepoint and a `COMMIT` the engine runs, when the storage refuses it; a
`ROLLBACK`, when the engine cannot be loaded again; a replay that stops; and a commit that
stops before it ends the transaction, which the session takes to have ended it. In a run
without these the copy is right after every command.
-/

namespace InlaySql.Server.Transactions

open Lib

open Stateful (bind_apply bind_of_error bind_of_ok change_apply gets_apply)

variable {Row : Type}

/-- The storage refuses a commit, or its counters do not read back. -/
def Faults.FlushFails (faults : Faults) : Prop := ¬ (faults.flush = none ∧ faults.counters = none)

namespace Engine

/-- Outside a transaction nothing is buffered, and no savepoint is set. -/
def Quiet (self : Engine Row) : Prop :=
  self.inTransaction = false -> self.store.buffered = [] ∧ self.savepoints = []

/-- The flag and the savepoints stay as they are. -/
def Framed (flag : Bool) (marks : List SavepointFrame) (self : Engine Row) : Prop :=
  self.inTransaction = flag ∧ self.savepoints = marks

variable {faults : Faults} {engine : Engine Row}

/-! ## Commits and rollbacks -/

theorem commitStorage_state (faults : Faults) (engine : Engine Row) :
    (commitStorage faults engine).2 = (match faults.flush with
      | none => engine.flushBuffered
      | some .conflict => engine.dropBuffered
      | some _ => engine) := by
  unfold commitStorage
  cases faults.flush with
  | none => cases counted : faults.counters <;> simp [bind_apply, attempt]
  | some error =>
    cases error with
    | conflict => cases loaded : faults.reload <;> simp [bind_apply, attempt]
    | stale | transaction | other => rfl

theorem commitStorage_ok (faults : Faults) (engine : Engine Row) :
    (commitStorage faults engine).1 = .ok () ↔ ¬ faults.FlushFails := by
  unfold commitStorage Faults.FlushFails
  cases flushed : faults.flush with
  | none => cases counted : faults.counters <;> simp [bind_apply, attempt]
  | some error =>
    cases error with
    | conflict => cases loaded : faults.reload <;> simp [bind_apply, attempt]
    | stale | transaction | other => simp

theorem requireTransaction_opened (what : String) (opened : engine.inTransaction = true) :
    requireTransaction what engine = (.ok (), engine) := by
  simp [requireTransaction, bind_apply, opened]

theorem requireTransaction_closed (what : String) (closed : engine.inTransaction = false) :
    requireTransaction what engine =
      (.error (.transaction s!"{what} with no transaction open"), engine) := by
  simp [requireTransaction, bind_apply, closed]

theorem commit_closed (faults : Faults) (closed : engine.inTransaction = false) :
    ∃ error, commit faults engine = (.error error, engine) :=
  ⟨_, bind_of_error (requireTransaction_closed "commit" closed)⟩

variable {error : EngineError} {flag : Bool} {marks : List SavepointFrame} (rows : List Row)
  (name : String) {plan : Plan Row}

theorem commit_stopped (opened : engine.inTransaction = true) (stopped : faults.bump = some error) :
    commit faults engine = (.error error, engine) := by
  unfold commit
  rw [bind_of_ok (requireTransaction_opened "commit" opened), stopped]
  rfl

theorem afterCommit_ok (result : Except EngineError Unit) (engine : Engine Row) :
    (afterCommit result engine).1 = .ok () ↔ result = .ok () := by
  unfold afterCommit
  cases result with
  | ok done => simp
  | error error => cases error <;> simp [bind_apply]

theorem afterCommit_state (result : Except EngineError Unit) (engine : Engine Row) :
    (afterCommit result engine).2 = (match result with
      | .ok () | .error .conflict => engine
      | .error _ => engine.dropBuffered) := by
  unfold afterCommit
  cases result with
  | ok done => simp
  | error error => cases error <;> simp [bind_apply]

theorem commit_eq (opened : engine.inTransaction = true) (bumped : faults.bump = none) :
    commit faults engine = afterCommit (commitStorage faults engine).1
      (commitStorage faults engine).2.endTransaction := by
  unfold commit
  rw [bind_of_ok (requireTransaction_opened "commit" opened), bumped]
  rfl

structure CommitEnds (faults : Faults) (engine : Engine Row) : Prop where
  closed : (commit faults engine).2.Framed false []
  quiet : (commit faults engine).2.store.buffered = []
  ok_iff : (commit faults engine).1 = .ok () ↔ ¬ faults.FlushFails
  durable : (commit faults engine).1 = .ok () -> (commit faults engine).2.store =
    ⟨engine.store.committed ++ engine.store.buffered, []⟩

theorem commit_ends (opened : engine.inTransaction = true) (bumped : faults.bump = none) :
    CommitEnds faults engine := by
  have state := commitStorage_state faults engine
  have answers := commitStorage_ok faults engine
  have whole := commit_eq opened bumped
  refine ⟨?_, ?_, ?_, ?_⟩
  · rw [whole, afterCommit_state]
    split <;> exact ⟨rfl, rfl⟩
  · rw [whole, afterCommit_state]
    cases flushed : faults.flush with
    | none =>
      rw [flushed] at state
      rw [state]
      split <;> rfl
    | some error =>
      cases error with
      | conflict =>
        rw [flushed] at state
        rw [state]
        split <;> rfl
      | stale | transaction | other =>
        have refused : ∃ error, (commitStorage faults engine).1 = .error error ∧
            error ≠ .conflict := by simp [commitStorage, flushed]
        obtain ⟨error, answered, different⟩ := refused
        rw [answered]
        cases error with
        | conflict => exact absurd rfl different
        | stale | transaction | other => rfl
  · rw [whole, afterCommit_ok, answers]
  · intro done
    rw [whole, afterCommit_ok] at done
    have flushed : faults.flush = none := by
      by_contra other
      exact answers.mp done fun both => other both.1
    rw [whole, afterCommit_state, done, state, flushed]
    rfl

structure RollbackEnds (faults : Faults) (engine : Engine Row) : Prop where
  state : (rollback faults engine).2 = engine.endTransaction.dropBuffered
  ok_iff : (rollback faults engine).1 = .ok () ↔ faults.reload = none

theorem rollback_ends (opened : engine.inTransaction = true) : RollbackEnds faults engine := by
  have whole : rollback faults engine =
      attempt faults.reload engine.endTransaction.dropBuffered := by
    unfold rollback
    rw [bind_of_ok (requireTransaction_opened "rollback" opened)]
    rfl
  refine ⟨?_, ?_⟩
  · rw [whole]
    cases faults.reload <;> rfl
  · rw [whole]
    cases faults.reload <;> simp [attempt]

theorem rollback_closed (faults : Faults) (closed : engine.inTransaction = false) :
    ∃ error, rollback faults engine = (.error error, engine) :=
  ⟨_, bind_of_error (requireTransaction_closed "rollback" closed)⟩

/-! ## Statements -/

/-- The commit at the end of a write outside a transaction. -/
def endWrite (faults : Faults) : EngineRun Row Unit := do
  attempt faults.bump
  commitStorage faults

theorem commitStorage_framed (faults : Faults) :
    Stateful.Keeps (Framed flag marks) (commitStorage faults : EngineRun Row Unit) := by
  intro engine framed
  rw [commitStorage_state]
  split <;> exact framed

theorem attempt_keeps {σ : Type} {property : σ -> Prop} (fault : Option EngineError) :
    Stateful.Keeps property (attempt fault) := by
  cases fault with
  | none => exact .pure ()
  | some error => exact .fail error

theorem endWrite_framed (faults : Faults) :
    Stateful.Keeps (Framed flag marks) (endWrite faults : EngineRun Row Unit) :=
  (attempt_keeps _).bind fun _ => commitStorage_framed faults

theorem endWrite_ok {faults : Faults} {engine : Engine Row}
    (done : (endWrite faults engine).1 = .ok ()) :
    (endWrite faults engine).2 = engine.flushBuffered := by
  unfold endWrite at done ⊢
  cases bumped : faults.bump with
  | some error =>
    rw [bumped] at done
    cases done
  | none =>
    rw [bumped] at done
    change (commitStorage faults engine).2 = _
    have flushed : faults.flush = none := by
      by_contra other
      exact (commitStorage_ok faults engine).mp done fun both => other both.1
    rw [commitStorage_state, flushed]

theorem write_eq (faults : Faults) (engine : Engine Row) :
    write rows faults engine = match faults.stops with
      | some (count, error) =>
        (.error error, (engine.buffer (rows.take count)).discardFailedStatement)
      | none =>
        if engine.inTransaction then (.ok (), { engine.buffer rows with
          transactionLog := engine.transactionLog ++ [rows] })
        else match endWrite faults (engine.buffer rows) with
          | (.ok (), ended) => (.ok (), ended)
          | (.error error, ended) => (.error error, ended.discardFailedStatement) := by
  unfold write
  cases faults.stops with
  | some stop => rfl
  | none =>
    cases opened : engine.inTransaction with
    | true => simp [bind_apply, buffer, opened]
    | false =>
      change ((Stateful.change (buffer rows) : EngineRun Row Unit) >>= _) engine = _
      rw [bind_of_ok (change_apply _)]
      have closed : (buffer rows engine).inTransaction = false := opened
      rw [bind_of_ok (gets_apply _), closed]
      simp only [Bool.false_eq_true, if_false]
      rw [bind_of_ok (Stateful.outcome_apply _)]
      change afterWrite (endWrite faults (buffer rows engine)).1
        (endWrite faults (buffer rows engine)).2 = _
      cases endWrite faults (buffer rows engine) with
      | mk answer ended => cases answer <;> rfl

theorem discardFailedStatement_framed {self : Engine Row} (framed : self.Framed flag marks) :
    self.discardFailedStatement.Framed flag marks := by
  unfold discardFailedStatement
  split <;> exact framed

theorem write_framed (faults : Faults) :
    Stateful.Keeps (Framed flag marks) (write rows faults) := by
  unfold write
  split
  · refine .bind (.change fun _ framed => framed) fun _ => ?_
    exact .bind (.change fun _ framed => discardFailedStatement_framed framed) fun _ => .fail _
  · refine .bind (.change fun _ framed => framed) fun _ => .bind (.gets _) fun opened => ?_
    split
    · exact .change fun _ framed => framed
    · refine .bind (.outcome (endWrite_framed faults)) fun answer => ?_
      cases answer with
      | ok done => exact .pure ()
      | error error =>
        exact .bind (.change fun _ framed => discardFailedStatement_framed framed) fun _ => .fail _

theorem write_closed (faults : Faults) (closed : engine.inTransaction = false)
    (quiet : engine.store.buffered = []) :
    (write rows faults engine).2.store.buffered = [] ∧ ((write rows faults engine).1 = .ok () ->
        (write rows faults engine).2.store.committed = engine.store.committed ++ rows) := by
  have discards (self : Engine Row) (closed : self.inTransaction = false) :
      self.discardFailedStatement.store.buffered = [] := by
    unfold discardFailedStatement
    rw [if_neg (by simp [closed])]
    rfl
  rw [write_eq]
  cases faults.stops with
  | some stop => exact ⟨discards _ closed, fun done => by cases done⟩
  | none =>
    have ends := (endWrite_framed faults (engine.buffer rows) ⟨rfl, rfl⟩).1
    have flushes := @endWrite_ok Row faults (engine.buffer rows)
    simp only [closed, Bool.false_eq_true, if_false]
    cases ran : endWrite faults (engine.buffer rows) with
    | mk answer ended =>
      rw [ran] at ends flushes
      cases answer with
      | ok done =>
        obtain rfl : ended = _ := flushes rfl
        exact ⟨rfl, fun _ => by simp [flushBuffered, buffer, quiet]⟩
      | error error => exact ⟨discards ended (ends.trans closed), fun done => by cases done⟩

theorem begin_eq (faults : Faults) (engine : Engine Row) : begin faults engine =
      if engine.inTransaction then
        (.error (.transaction "a transaction is already open"), engine)
      else match faults.pin with
        | none => (.ok (), ⟨engine.store, true, false, [], []⟩)
        | some error => (.error error, engine) := by
  unfold begin
  cases opened : engine.inTransaction <;> cases pinned : faults.pin <;>
    simp [bind_apply, opened, attempt]

/-! ## Savepoints -/

section

variable (faults : Faults) (engine : Engine Row)

theorem savepoint_eq : savepoint name faults engine =
      if engine.inTransaction then (.ok (), { engine with
        savepoints := ⟨name, engine.transactionLog.length⟩ :: engine.savepoints })
      else match faults.pin with
        | none => (.ok (), ⟨engine.store, true, true, [], [⟨name, 0⟩]⟩)
        | some error => (.error error, engine) := by
  cases opened : engine.inTransaction with
  | true => simp [savepoint, bind_apply, opened]
  | false =>
    cases pinned : faults.pin with
    | none => simp [savepoint, bind_apply, opened, begin_eq, pinned]
    | some error => simp [savepoint, bind_apply, opened, begin_eq, pinned]

/-- What a released savepoint comes to: the markers go, and with the last of them the
transaction a savepoint opened. -/
theorem releaseSavepoint_eq :
    releaseSavepoint name faults engine = match engine.outwardFrom name with
      | [] => (.error (noSuchSavepoint name), engine)
      | _ :: outer =>
        if outer = [] ∧ engine.transactionIsImplicit then
          commit faults { engine with savepoints := outer }
        else (.ok (), { engine with savepoints := outer }) := by
  unfold releaseSavepoint
  rw [bind_of_ok (gets_apply _)]
  cases engine.outwardFrom name with
  | nil => rfl
  | cons frame outer =>
    simp only
    rw [bind_of_ok (change_apply _), bind_of_ok (gets_apply _)]
    cases outer with
    | nil => cases implicit : engine.transactionIsImplicit <;> simp
    | cons next outer => simp

theorem rollbackToSavepoint_eq :
    rollbackToSavepoint name faults engine = match engine.outwardFrom name with
      | [] => (.error (noSuchSavepoint name), engine)
      | frame :: outer =>
        replayTransactionUpTo frame.logPosition faults
          { engine with savepoints := frame :: outer } := by
  unfold rollbackToSavepoint
  rw [bind_of_ok (gets_apply _)]
  cases engine.outwardFrom name with
  | nil => rfl
  | cons frame outer => rfl

end

theorem replayTransactionUpTo_eq (targetLen : Nat) (faults : Faults) (engine : Engine Row) :
    ∃ cause, replayTransactionUpTo targetLen faults engine = match faults.reload, faults.replay with
      | some error, _ => (.error error, engine.dropBuffered)
      | none, none => (.ok (), { engine.dropBuffered.buffer
          (engine.transactionLog.take targetLen).flatten with
            transactionLog := engine.transactionLog.take targetLen })
      | none, some _ => (.error cause, engine.endTransaction.dropBuffered) := by
  unfold replayTransactionUpTo
  cases faults.reload with
  | some error => exact ⟨error, rfl⟩
  | none =>
    cases faults.replay with
    | none => exact ⟨.conflict, rfl⟩
    | some error => exact ⟨_, rfl⟩

/-! ## The flag after a statement that failed -/

/-- The plan ends the engine's transaction, or its failure does. -/
def EndsUnnoticed (plan : Plan Row) (faults : Faults) (engine : Engine Row) : Prop :=
  engine.inTransaction = true ∧ faults.refused = none ∧
    match plan with
    | .commit => faults.bump = none ∧ faults.FlushFails
    | .rollback => faults.reload ≠ none
    | .releaseSavepoint name => engine.transactionIsImplicit = true ∧
        (∃ frame, engine.outwardFrom name = [frame]) ∧ faults.bump = none ∧ faults.FlushFails
    | .rollbackToSavepoint name => engine.outwardFrom name ≠ [] ∧ faults.reload = none ∧
        faults.replay ≠ none
    | .read _ | .write _ | .begin | .savepoint _ => False

theorem commit_failed (failed : (commit faults engine).1 = .error error) :
    (commit faults engine).2.inTransaction = engine.inTransaction ↔
      ¬ (engine.inTransaction = true ∧ faults.bump = none ∧ faults.FlushFails) := by
  cases opened : engine.inTransaction with
  | false =>
    obtain ⟨_, ran⟩ := commit_closed faults opened
    simp [ran, opened]
  | true =>
    cases bumped : faults.bump with
    | some stopped => simp [commit_stopped opened bumped, opened]
    | none =>
      have ends := commit_ends opened bumped
      have flushFails : faults.FlushFails := by
        by_contra flushes
        rw [ends.ok_iff.mpr flushes] at failed
        cases failed
      simp [ends.closed.1, flushFails]

theorem perform_failed (refused : faults.refused = none)
    (failed : (perform plan faults engine).1 = .error error) :
    (perform plan faults engine).2.inTransaction = engine.inTransaction ↔
      ¬ EndsUnnoticed plan faults engine := by
  unfold EndsUnnoticed
  cases plan with
  | read streamed =>
    have same : (perform (.read streamed) faults engine).2 = engine := by
      unfold perform attempt
      split <;> rfl
    simp [same]
  | write rows => simp [perform, (write_framed rows faults engine ⟨rfl, rfl⟩).1]
  | begin =>
    have same : (begin faults engine).2 = engine := by
      rw [perform, begin_eq] at failed
      rw [begin_eq]
      split
      · rfl
      · rename_i closed
        rw [if_neg closed] at failed
        cases pinned : faults.pin with
        | none =>
          rw [pinned] at failed
          cases failed
        | some error => rfl
    simp [perform, same]
  | commit =>
    rw [perform, commit_failed failed, refused]
    simp
  | rollback =>
    rw [perform] at failed ⊢
    cases opened : engine.inTransaction with
    | false =>
      obtain ⟨_, ran⟩ := rollback_closed faults opened
      simp [ran, opened]
    | true =>
      have ends := @rollback_ends Row faults engine opened
      have unloaded : faults.reload ≠ none := by
        intro loaded
        rw [ends.ok_iff.mpr loaded] at failed
        cases failed
      simp [ends.state, refused, unloaded, dropBuffered, endTransaction]
  | savepoint name =>
    rw [perform] at failed ⊢
    have same : (savepoint name faults engine).2 = engine := by
      rw [savepoint_eq] at failed ⊢
      split
      · rename_i opened
        rw [if_pos opened] at failed
        cases failed
      · rename_i closed
        rw [if_neg closed] at failed
        cases pinned : faults.pin with
        | none =>
          rw [pinned] at failed
          cases failed
        | some error => rfl
    simp [same]
  | releaseSavepoint name =>
    rw [perform, releaseSavepoint_eq] at failed ⊢
    cases named : engine.outwardFrom name with
    | nil => simp [named]
    | cons frame outer =>
      rw [named] at failed
      simp only at failed ⊢
      by_cases ends : outer = [] ∧ engine.transactionIsImplicit = true
      · rw [if_pos ends] at failed ⊢
        obtain ⟨rfl, implicit⟩ := ends
        rw [commit_failed failed]
        simp [implicit, refused, named]
      · rw [if_neg ends] at failed
        cases failed
  | rollbackToSavepoint name =>
    rw [perform, rollbackToSavepoint_eq] at failed ⊢
    cases named : engine.outwardFrom name with
    | nil => simp [named]
    | cons frame outer =>
      rw [named] at failed
      simp only at failed ⊢
      obtain ⟨cause, ran⟩ := replayTransactionUpTo_eq frame.logPosition faults
        { engine with savepoints := frame :: outer }
      rw [ran] at failed ⊢
      cases loaded : faults.reload with
      | some error => simp [dropBuffered]
      | none =>
        cases replayed : faults.replay with
        | none =>
          rw [loaded, replayed] at failed
          cases failed
        | some error =>
          cases opened : engine.inTransaction <;>
            simp [endTransaction, dropBuffered, refused, named]

theorem refreshSnapshot_eq (faults : Faults) (engine : Engine Row) : refreshSnapshot faults engine =
      attempt (if engine.inTransaction then none else faults.refresh) engine := by
  unfold refreshSnapshot
  rw [bind_of_ok (gets_apply _)]
  cases engine.inTransaction <;> rfl

theorem run_eq (plan : Plan Row) (faults : Faults) (engine : Engine Row) : run plan faults engine =
      match (if engine.inTransaction then none else faults.refresh), faults.refused with
      | some error, _ => (.error error, engine)
      | none, some error => (.error error, engine)
      | none, none => perform plan faults engine := by
  have refresh := refreshSnapshot_eq faults engine
  unfold run
  cases refreshed : (if engine.inTransaction then none else faults.refresh) with
  | some error =>
    rw [refreshed] at refresh
    exact bind_of_error refresh
  | none =>
    rw [refreshed] at refresh
    rw [bind_of_ok refresh]
    cases faults.refused <;> rfl

theorem run_failed (failed : (run plan faults engine).1 = .error error) :
    (run plan faults engine).2.inTransaction = engine.inTransaction ↔
      ¬ EndsUnnoticed plan faults engine := by
  rw [run_eq] at failed ⊢
  cases refused : faults.refused with
  | some stopped =>
    have same : ¬ EndsUnnoticed plan faults engine := fun ends => by
      rw [ends.2.1] at refused
      cases refused
    split <;> simp_all
  | none =>
    cases refreshed : (if engine.inTransaction then none else faults.refresh) with
    | none =>
      rw [refused, refreshed] at failed
      exact perform_failed refused failed
    | some stopped =>
      have closed : engine.inTransaction = false := by
        by_contra opened
        simp [opened] at refreshed
      have same : ¬ EndsUnnoticed plan faults engine := fun ends => by
        rw [ends.1] at closed
        cases closed
      simp [same]

theorem endsUnnoticed_fails (ends : EndsUnnoticed plan faults engine) :
    (run plan faults engine).1 ≠ .ok () := by
  obtain ⟨opened, refused, how⟩ := ends
  rw [run_eq, opened, refused]
  cases plan with
  | read | write | begin | savepoint => exact how.elim
  | commit =>
    intro done
    exact (commit_ends opened how.1).ok_iff.mp done how.2
  | rollback =>
    intro done
    exact how ((rollback_ends opened).ok_iff.mp done)
  | releaseSavepoint name =>
    obtain ⟨implicit, ⟨frame, named⟩, bumped, flushFails⟩ := how
    rw [perform, releaseSavepoint_eq, named]
    change (if [] = [] ∧ _ then _ else _ : Except EngineError Unit × Engine Row).1 ≠ _
    rw [if_pos ⟨rfl, implicit⟩]
    intro done
    exact (@commit_ends Row faults { engine with savepoints := [] } opened bumped).ok_iff.mp done
      flushFails
  | rollbackToSavepoint name =>
    obtain ⟨named, loaded, stopped⟩ := how
    rw [perform, rollbackToSavepoint_eq]
    cases found : engine.outwardFrom name with
    | nil => exact absurd found named
    | cons frame outer =>
      obtain ⟨cause, ran⟩ := replayTransactionUpTo_eq frame.logPosition faults
        { engine with savepoints := frame :: outer }
      cases replayed : faults.replay with
      | none => exact absurd replayed stopped
      | some error =>
        simp only
        rw [ran, loaded, replayed]
        intro done
        cases done

theorem perform_quiet (plan : Plan Row) (faults : Faults) :
    Stateful.Keeps Quiet (perform plan faults) := by
  have commits (faults : Faults) : Stateful.Keeps Quiet (commit faults : EngineRun Row Unit) := by
    intro engine quiet
    cases opened : engine.inTransaction with
    | false =>
      obtain ⟨_, ran⟩ := commit_closed faults opened
      rwa [ran]
    | true =>
      cases bumped : faults.bump with
      | some stopped => rwa [commit_stopped opened bumped]
      | none =>
        have ends := commit_ends opened bumped
        exact fun _ => ⟨ends.quiet, ends.closed.2⟩
  intro engine quiet
  cases plan with
  | read streamed => exact attempt_keeps _ engine quiet
  | write rows =>
    intro closed
    have framed := write_framed rows faults engine ⟨rfl, rfl⟩
    have wasClosed : engine.inTransaction = false := framed.1.symm.trans closed
    have before := quiet wasClosed
    exact ⟨(write_closed rows faults wasClosed before.1).1, framed.2.trans before.2⟩
  | begin =>
    rw [perform, begin_eq]
    split
    · exact quiet
    · split
      · exact fun closed => by cases closed
      · exact quiet
  | commit => exact commits faults engine quiet
  | rollback =>
    rw [perform]
    cases opened : engine.inTransaction with
    | false =>
      obtain ⟨_, ran⟩ := rollback_closed faults opened
      rwa [ran]
    | true =>
      rw [(rollback_ends opened).state]
      exact fun _ => ⟨rfl, rfl⟩
  | savepoint name =>
    rw [perform, savepoint_eq]
    split
    · rename_i opened
      exact fun closed => absurd (opened.symm.trans closed) (by decide)
    · split
      · exact fun closed => by cases closed
      · exact quiet
  | releaseSavepoint name =>
    rw [perform, releaseSavepoint_eq]
    cases named : engine.outwardFrom name with
    | nil => exact quiet
    | cons frame outer =>
      have popped : Quiet { engine with savepoints := outer } := by
        intro closed
        have none_set : engine.savepoints = [] := (quiet closed).2
        simp [outwardFrom, none_set] at named
      simp only
      split
      · exact commits faults _ popped
      · exact popped
  | rollbackToSavepoint name =>
    rw [perform, rollbackToSavepoint_eq]
    cases named : engine.outwardFrom name with
    | nil => exact quiet
    | cons frame outer =>
      obtain ⟨cause, ran⟩ := replayTransactionUpTo_eq frame.logPosition faults
        { engine with savepoints := frame :: outer }
      have opened : engine.inTransaction = true := by
        by_contra closed
        have none_set : engine.savepoints = [] := (quiet (by simpa using closed)).2
        simp [outwardFrom, none_set] at named
      have stillOpen {property : Prop} (closed : engine.inTransaction = false) : property :=
        absurd (opened.symm.trans closed) (by decide)
      simp only
      rw [ran]
      split
      · exact stillOpen
      · exact stillOpen
      · exact fun _ => ⟨rfl, rfl⟩

theorem run_quiet (plan : Plan Row) (faults : Faults) : Stateful.Keeps Quiet (run plan faults) := by
  intro engine quiet
  rw [run_eq]
  split
  · exact quiet
  · exact quiet
  · exact perform_quiet plan faults engine quiet

end Engine

end InlaySql.Server.Transactions
