import InlaySql.Lib.Transition
import Mathlib

/-!
# The group-commit coordinator

`CommitCoordinator` is shared by every handle on one file. A handle publishes a
ticket once its writes have returned, and one handle at a time leads a flush
round whose barrier covers every ticket published before it started.

The model is a step relation over the coordinator's shared fields and one
program counter per handle. Each atomic access, each acquisition of the `flush`
mutex and each end of a barrier is a step of its own, so every interleaving of
the source is a run. The timing counters are not modelled: nothing reads them.
-/

namespace InlaySql.Device

open Lib

/-- The barrier strength a handle asks for. -/
inductive Durability where
  | full
  | normal
  deriving DecidableEq, Repr

/-- The ratchet behind `set_durability`, ordered `unset < normal < full`. -/
inductive DurabilityRatchet where
  | unset
  | normal
  | full
  deriving DecidableEq, Repr

/-- `CommitCoordinator::set_durability`: raise the ratchet, never lower it. -/
def DurabilityRatchet.raise (ratchet : DurabilityRatchet) : Durability -> DurabilityRatchet
  | .full => .full
  | .normal => if ratchet = .full then .full else .normal

/-- `CommitCoordinator::effective_durability`. -/
def DurabilityRatchet.effectiveDurability : DurabilityRatchet -> Durability
  | .normal => .normal
  | .unset => .full
  | .full => .full

/-- Which entry point a call came through: `FileDevice::sync`, or
`FileDevice::sync_commit` with a ticket `commit_ready` published. -/
inductive CallKind where
  | sync
  | syncCommit
  deriving DecidableEq, Repr

/-- One call of `make_durable_with_cohort`. `level` is the strength of the
barrier its closure runs, fixed before the call starts. -/
structure Call where
  kind : CallKind
  ticket : Nat
  level : Durability
  deriving DecidableEq, Repr

/-- How a barrier ends. -/
inductive BarrierResult where
  | ok
  | failed
  | panicked
  deriving DecidableEq, Repr

/-- Whether the call that ran the barrier returns `Ok`. -/
def BarrierResult.isOk (result : BarrierResult) : Bool := result == .ok

/-- Where one handle stands inside `sync`, `sync_commit` or
`make_durable_with_cohort`. -/
inductive ProgramCounter where
  /-- Outside the flush protocol. -/
  | idle
  /-- In `sync`, before its `fetch_add` on `writes_completed`. -/
  | publishing
  /-- In `sync_commit`, holding the swapped ticket, before `effective_durability`. -/
  | leveling (ticket : Nat)
  /-- At the lock-free check at the top of the loop. -/
  | checking (call : Call)
  /-- Waiting for the `flush` mutex. -/
  | locking (call : Call)
  /-- Holding the mutex, before the second check. -/
  | rechecking (call : Call)
  /-- Holding the mutex, before reading `in_progress`. -/
  | electing (call : Call)
  /-- A follower inside `Condvar::wait`, remembering the epoch it saw. -/
  | waiting (call : Call) (epoch : Nat)
  /-- A follower holding the mutex again, before it tests the wait condition. -/
  | woken (call : Call) (epoch : Nat)
  /-- The leader, before or inside `coalesce_normal_commits`. -/
  | gathering (call : Call)
  /-- The leader, before it loads the flush target. -/
  | capturing (call : Call)
  /-- The leader, with its target captured and the barrier not yet started. -/
  | starting (call : Call) (target : Nat)
  /-- The leader, inside its barrier. -/
  | flushing (call : Call) (target : Nat) (barrier : Nat)
  /-- The leader, with the barrier's result and `fetch_max` still to do. -/
  | flushed (call : Call) (target : Nat) (barrier : Nat)
  /-- In `LeaderGuard::drop`, waiting for the mutex. -/
  | leaving (call : Call) (result : BarrierResult)
  /-- In `LeaderGuard::drop`, holding the mutex. -/
  | clearing (call : Call) (result : BarrierResult)
  /-- Unwound by a panic inside the barrier. -/
  | unwound
  deriving DecidableEq, Repr

/-- The observable events of a run. `barrier` numbers the barriers in the order
they start. -/
inductive FlushEvent (Handle : Type) where
  | wrote (handle : Handle)
  | setDurability (handle : Handle) (level : Durability)
  | published (handle : Handle) (kind : CallKind) (ticket : Nat)
  | barrierStarted (handle : Handle) (barrier : Nat) (level : Durability) (target : Nat)
  | barrierEnded (handle : Handle) (barrier : Nat) (result : BarrierResult)
  | roundEnded (handle : Handle)
  | returned (handle : Handle) (kind : CallKind) (ticket : Nat) (ok : Bool)
  | internal (handle : Handle)
  deriving DecidableEq, Repr

/-- The shared fields of `CommitCoordinator`, with each handle's
`pending_commit_ticket` and program counter. -/
structure Coordinator (Handle : Type) where
  writesCompleted : Nat
  durableUpto : Nat
  inProgress : Bool
  epoch : Nat
  flushLock : Option Handle
  durability : DurabilityRatchet
  barriers : Nat
  pendingCommitTicket : Handle -> Nat
  pc : Handle -> ProgramCounter

namespace Coordinator

variable {Handle : Type} [DecidableEq Handle]

/-- A coordinator nobody has used yet. -/
def new : Coordinator Handle where
  writesCompleted := 0
  durableUpto := 0
  inProgress := false
  epoch := 0
  flushLock := none
  durability := .unset
  barriers := 0
  pendingCommitTicket := fun _ => 0
  pc := fun _ => .idle

/-- Move one handle's program counter. -/
def goto (state : Coordinator Handle) (handle : Handle) (pc : ProgramCounter) :
    Coordinator Handle :=
  { state with pc := Function.update state.pc handle pc }

/-- `epoch.wrapping_add(1)` on the source's `u64`. -/
def nextEpoch (epoch : Nat) : Nat := (epoch + 1) % 2 ^ 64

/-- One step of one handle. -/
inductive Step : Coordinator Handle -> FlushEvent Handle -> Coordinator Handle -> Prop where
  /-- A `write` of this handle returned; the coordinator is not consulted. -/
  | write {state} (handle : Handle) : Step state (.wrote handle) state
  /-- `set_durability`, at any time. -/
  | setDurability {state} (handle : Handle) (level : Durability) :
      Step state (.setDurability handle level)
        { state with durability := state.durability.raise level }
  /-- `commit_ready`: publish a ticket and remember it for `sync_commit`. -/
  | commitReady {state} (handle : Handle) (idle : state.pc handle = .idle) :
      Step state (.published handle .syncCommit (state.writesCompleted + 1))
        { state with
          writesCompleted := state.writesCompleted + 1
          pendingCommitTicket :=
            Function.update state.pendingCommitTicket handle (state.writesCompleted + 1) }
  /-- `sync` is entered. -/
  | enterSync {state} (handle : Handle) (idle : state.pc handle = .idle) :
      Step state (.internal handle) (state.goto handle .publishing)
  /-- `sync` publishes its own ticket; its barrier is always `sync_all`. -/
  | publish {state} (handle : Handle) (here : state.pc handle = .publishing) :
      Step state (.published handle .sync (state.writesCompleted + 1))
        ({ state with writesCompleted := state.writesCompleted + 1 }.goto handle
          (.checking ⟨.sync, state.writesCompleted + 1, .full⟩))
  /-- `sync_commit` with no ticket falls back to `sync`. -/
  | enterSyncCommitBare {state} (handle : Handle) (idle : state.pc handle = .idle)
      (none : state.pendingCommitTicket handle = 0) :
      Step state (.internal handle) (state.goto handle .publishing)
  /-- `sync_commit` swaps its ticket out. -/
  | enterSyncCommit {state} (handle : Handle) (idle : state.pc handle = .idle)
      (some : state.pendingCommitTicket handle ≠ 0) :
      Step state (.internal handle)
        ({ state with pendingCommitTicket :=
            Function.update state.pendingCommitTicket handle 0 }.goto handle
          (.leveling (state.pendingCommitTicket handle)))
  /-- `sync_commit` reads the strength its barrier will have. -/
  | readLevel {state} (handle : Handle) {ticket} (here : state.pc handle = .leveling ticket) :
      Step state (.internal handle) (state.goto handle
        (.checking ⟨.syncCommit, ticket, state.durability.effectiveDurability⟩))
  /-- The lock-free check answers. -/
  | checkCovered {state} (handle : Handle) {call} (here : state.pc handle = .checking call)
      (covered : call.ticket ≤ state.durableUpto) :
      Step state (.returned handle call.kind call.ticket true) (state.goto handle .idle)
  /-- The lock-free check does not answer. -/
  | checkMissed {state} (handle : Handle) {call} (here : state.pc handle = .checking call)
      (missed : ¬ call.ticket ≤ state.durableUpto) :
      Step state (.internal handle) (state.goto handle (.locking call))
  /-- Take the `flush` mutex. -/
  | lock {state} (handle : Handle) {call} (here : state.pc handle = .locking call)
      (free : state.flushLock = none) :
      Step state (.internal handle)
        ({ state with flushLock := some handle }.goto handle (.rechecking call))
  /-- The check under the lock answers; the mutex is released on return. -/
  | recheckCovered {state} (handle : Handle) {call} (here : state.pc handle = .rechecking call)
      (covered : call.ticket ≤ state.durableUpto) :
      Step state (.returned handle call.kind call.ticket true)
        ({ state with flushLock := none }.goto handle .idle)
  /-- The check under the lock does not answer. -/
  | recheckMissed {state} (handle : Handle) {call} (here : state.pc handle = .rechecking call)
      (missed : ¬ call.ticket ≤ state.durableUpto) :
      Step state (.internal handle) (state.goto handle (.electing call))
  /-- A round is in progress: release the mutex and wait for its end. -/
  | follow {state} (handle : Handle) {call} (here : state.pc handle = .electing call)
      (busy : state.inProgress = true) :
      Step state (.internal handle)
        ({ state with flushLock := none }.goto handle (.waiting call state.epoch))
  /-- No round is in progress: become its leader and release the mutex. -/
  | lead {state} (handle : Handle) {call} (here : state.pc handle = .electing call)
      (free : state.inProgress = false) :
      Step state (.internal handle)
        ({ state with flushLock := none, inProgress := true }.goto handle (.gathering call))
  /-- A follower wakes, notified or spuriously, and takes the mutex back. -/
  | wake {state} (handle : Handle) {call epoch} (here : state.pc handle = .waiting call epoch)
      (free : state.flushLock = none) :
      Step state (.internal handle)
        ({ state with flushLock := some handle }.goto handle (.woken call epoch))
  /-- The round it waited for is still running: wait again. -/
  | waitAgain {state} (handle : Handle) {call epoch} (here : state.pc handle = .woken call epoch)
      (same : state.inProgress = true ∧ state.epoch = epoch) :
      Step state (.internal handle)
        ({ state with flushLock := none }.goto handle (.waiting call epoch))
  /-- The round ended: release the mutex and go back to the top of the loop. -/
  | loop {state} (handle : Handle) {call epoch} (here : state.pc handle = .woken call epoch)
      (moved : ¬ (state.inProgress = true ∧ state.epoch = epoch)) :
      Step state (.internal handle)
        ({ state with flushLock := none }.goto handle (.checking call))
  /-- One turn of `coalesce_normal_commits`; a `sync` call never takes one. -/
  | coalesce {state} (handle : Handle) {call} (here : state.pc handle = .gathering call)
      (normal : call.kind = .syncCommit) :
      Step state (.internal handle) state
  /-- The gathering window closes. -/
  | gathered {state} (handle : Handle) {call} (here : state.pc handle = .gathering call) :
      Step state (.internal handle) (state.goto handle (.capturing call))
  /-- The leader loads its flush target. -/
  | capture {state} (handle : Handle) {call} (here : state.pc handle = .capturing call) :
      Step state (.internal handle)
        (state.goto handle (.starting call state.writesCompleted))
  /-- The barrier starts. -/
  | startBarrier {state} (handle : Handle) {call target}
      (here : state.pc handle = .starting call target) :
      Step state (.barrierStarted handle state.barriers call.level target)
        ({ state with barriers := state.barriers + 1 }.goto handle
          (.flushing call target state.barriers))
  /-- The barrier succeeds. -/
  | endBarrier {state} (handle : Handle) {call target barrier}
      (here : state.pc handle = .flushing call target barrier) :
      Step state (.barrierEnded handle barrier .ok)
        (state.goto handle (.flushed call target barrier))
  /-- The barrier fails or panics; `durable_upto` stays where it is. -/
  | breakBarrier {state} (handle : Handle) {call target barrier} (result : BarrierResult)
      (broken : result ≠ .ok) (here : state.pc handle = .flushing call target barrier) :
      Step state (.barrierEnded handle barrier result)
        (state.goto handle (.leaving call result))
  /-- `durable_upto.fetch_max(target)`. -/
  | fetchMax {state} (handle : Handle) {call target barrier}
      (here : state.pc handle = .flushed call target barrier) :
      Step state (.internal handle)
        ({ state with durableUpto := max state.durableUpto target }.goto handle
          (.leaving call .ok))
  /-- `LeaderGuard::drop` takes the mutex. -/
  | guardLock {state} (handle : Handle) {call result}
      (here : state.pc handle = .leaving call result) (free : state.flushLock = none) :
      Step state (.internal handle)
        ({ state with flushLock := some handle }.goto handle (.clearing call result))
  /-- `LeaderGuard::drop` ends the round and the call returns its result. -/
  | guardClear {state} (handle : Handle) {call result}
      (here : state.pc handle = .clearing call result) (returns : result ≠ .panicked) :
      Step state (.returned handle call.kind call.ticket result.isOk)
        ({ state with flushLock := none, inProgress := false,
                      epoch := nextEpoch state.epoch }.goto handle .idle)
  /-- `LeaderGuard::drop` ends the round while a panic unwinds the call. -/
  | guardUnwind {state} (handle : Handle) {call}
      (here : state.pc handle = .clearing call .panicked) :
      Step state (.roundEnded handle)
        ({ state with flushLock := none, inProgress := false,
                      epoch := nextEpoch state.epoch }.goto handle .unwound)

/-- All handles on one coordinator, from its creation. -/
def system (Handle : Type) [DecidableEq Handle] :
    System (Coordinator Handle) (FlushEvent Handle) where
  Initial state := state = new
  Step := Step

end Coordinator

end InlaySql.Device
