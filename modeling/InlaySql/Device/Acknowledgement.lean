import InlaySql.Device.Coordinator
import Mathlib

/-!
# What an acknowledged flush rests on

`Coordinator.WellFormed` is what holds of the shared fields at every moment:
tickets and targets are published, and the handle leading a round is the only
one. `Accounted` ties them to the trace: every ticket up to `durable_upto` was
published before some barrier started that has since returned `Ok`.

Strength needs more. One `durable_upto` and one leader slot serve barriers of
two strengths, so a ticket that asks for a full barrier can be acknowledged by a
weaker one. `StrengthKept` is the condition on the barriers of a run under which
that does not happen, and `Strong` the invariant it buys.
-/

namespace InlaySql.Device

open List Lib

variable {Handle : Type}

/-- The call a handle is inside, once it has a ticket to wait for. -/
@[simp] def ProgramCounter.call : ProgramCounter -> Option Call
  | .idle | .publishing | .leveling _ | .unwound => none
  | .checking call | .locking call | .rechecking call | .electing call
  | .waiting call _ | .woken call _ | .gathering call | .capturing call
  | .starting call _ | .flushing call _ _ | .flushed call _ _
  | .leaving call _ | .clearing call _ => some call

/-- The ticket a handle holds, before or after it knows its barrier's strength. -/
@[simp] def ProgramCounter.ticket : ProgramCounter -> Option Nat
  | .leveling ticket => some ticket
  | pc => pc.call.map Call.ticket

/-- The flush target a leader has captured and not yet published. -/
@[simp] def ProgramCounter.target : ProgramCounter -> Option Nat
  | .starting _ target | .flushing _ target _ | .flushed _ target _ => some target
  | _ => none

/-- Whether a handle leads the current round. -/
@[simp] def ProgramCounter.Leads : ProgramCounter -> Prop
  | .gathering _ | .capturing _ | .starting _ _ | .flushing _ _ _ | .flushed _ _ _
  | .leaving _ _ | .clearing _ _ => True
  | _ => False

/-- Whether a handle is inside its barrier. -/
@[simp] def ProgramCounter.InBarrier : ProgramCounter -> Prop
  | .flushing _ _ _ => True
  | _ => False

/-- Whether a round's barrier has succeeded and been folded into `durable_upto`. -/
@[simp] def ProgramCounter.Succeeded : ProgramCounter -> Prop
  | .leaving _ result | .clearing _ result => result = .ok
  | _ => False

/-- The target of a weak barrier that runs or has just returned `Ok`. -/
@[simp] def ProgramCounter.weakTarget : ProgramCounter -> Option Nat
  | .flushing call target _ | .flushed call target _ =>
    if call.level = .normal then some target else none
  | _ => none

/-- Some barrier of strength `level` started after `ticket` was published and
has returned `Ok`. -/
def Flushed (trace : List (FlushEvent Handle)) (ticket : Nat) (level : Durability) : Prop :=
  ∃ publisher kind leader barrier target,
    [.published publisher kind ticket, .barrierStarted leader barrier level target,
      .barrierEnded leader barrier .ok].Sublist trace

/-- `ticket` asks for a full barrier: `sync` published it, or some handle had
asked for `Durability::Full` before it was published. -/
def NeedsFull (trace : List (FlushEvent Handle)) (ticket : Nat) : Prop :=
  ∃ publisher kind, .published publisher kind ticket ∈ trace ∧
    (kind = .sync ∨ ∃ asker,
      [.setDurability asker .full, .published publisher kind ticket].Sublist trace)

/-- Every `Ok` was returned after a barrier that covers its ticket. -/
def AcknowledgedFlushed (trace : List (FlushEvent Handle)) : Prop :=
  ∀ before handle kind ticket after,
    trace = before ++ .returned handle kind ticket true :: after ->
      ∃ level, Flushed before ticket level

/-- Every `Ok` was returned after a barrier that covers its ticket at the
strength the ticket asks for. -/
def AcknowledgedAtStrength (trace : List (FlushEvent Handle)) : Prop :=
  ∀ before handle kind ticket after,
    trace = before ++ .returned handle kind ticket true :: after ->
      (kind = .sync ∨ NeedsFull before ticket) -> Flushed before ticket .full

/-- No weak barrier starts while its target covers a ticket that asks for a full
barrier and has not had one. -/
def StrengthKept (trace : List (FlushEvent Handle)) : Prop :=
  ∀ before handle barrier target after,
    trace = before ++ .barrierStarted handle barrier .normal target :: after ->
      ∀ ticket, ticket ≤ target -> NeedsFull before ticket -> Flushed before ticket .full

section Trace

variable {trace : List (FlushEvent Handle)} {event : FlushEvent Handle}
  {ticket : Nat} {level : Durability}

theorem Flushed.snoc (flushed : Flushed trace ticket level) :
    Flushed (trace ++ [event]) ticket level := by
  obtain ⟨publisher, kind, leader, barrier, target, ordered⟩ := flushed
  exact ⟨publisher, kind, leader, barrier, target, ordered.trans (sublist_append_left _ _)⟩

theorem NeedsFull.of_snoc (needs : NeedsFull (trace ++ [event]) ticket)
    (other : ∀ handle kind, event ≠ .published handle kind ticket) :
    NeedsFull trace ticket := by
  obtain ⟨publisher, kind, member, demand⟩ := needs
  have published : FlushEvent.published publisher kind ticket ∈ trace := by
    rcases mem_append.mp member with found | found
    · exact found
    · exact absurd (mem_singleton.mp found).symm (other publisher kind)
  refine ⟨publisher, kind, published, demand.imp_right ?_⟩
  rintro ⟨asker, ordered⟩
  obtain ⟨left, right, split, leftSub, rightSub⟩ := sublist_append_iff.mp ordered
  -- The publication is the last of the two, so it would have to be the new event.
  rcases eq_nil_or_concat right with rfl | ⟨init, last, rfl⟩
  · exact ⟨asker, by simpa [split] using leftSub⟩
  · have whole : [FlushEvent.setDurability asker .full] ++ [.published publisher kind ticket]
        = (left ++ init) ++ [last] := by simpa using split
    obtain ⟨-, lastEq⟩ := append_inj' whole rfl
    obtain rfl : FlushEvent.published publisher kind ticket = last := by simpa using lastEq
    have inEvent : FlushEvent.published publisher kind ticket ∈ [event] :=
      rightSub.subset (by simp)
    exact absurd (mem_singleton.mp inEvent).symm (other publisher kind)

theorem StrengthKept.of_snoc (kept : StrengthKept (trace ++ [event])) : StrengthKept trace := by
  intro before handle barrier target after split
  exact kept before handle barrier target (after ++ [event]) (by simp [split])

end Trace

namespace Coordinator

variable [DecidableEq Handle]

section Goto

variable {state : Coordinator Handle} {handle other : Handle} {pc : ProgramCounter}

@[simp] theorem goto_pc_self : (state.goto handle pc).pc handle = pc := by simp [goto]

@[simp] theorem goto_pc_other (distinct : other ≠ handle) :
    (state.goto handle pc).pc other = state.pc other := by simp [goto, distinct]

end Goto

theorem nextEpoch_ne (epoch : Nat) : nextEpoch epoch ≠ epoch := by
  unfold nextEpoch
  omega

/-- What holds of one program counter against the shared fields. -/
structure Placed (state : Coordinator Handle) (pc : ProgramCounter) : Prop where
  ticket_le : ∀ ticket, pc.ticket = some ticket -> 0 < ticket ∧ ticket ≤ state.writesCompleted
  target_le : ∀ target, pc.target = some target -> target ≤ state.writesCompleted
  succeeded_covers : ∀ ticket, pc.Succeeded -> pc.ticket = some ticket ->
    ticket ≤ state.durableUpto
  target_covers : ∀ target ticket, pc.target = some target -> pc.ticket = some ticket ->
    ticket ≤ target
  leads_inProgress : pc.Leads -> state.inProgress = true

/-- What holds of the shared fields and program counters at every moment. -/
structure WellFormed (state : Coordinator Handle) : Prop where
  durable_le : state.durableUpto ≤ state.writesCompleted
  pending_le : ∀ handle, state.pendingCommitTicket handle ≤ state.writesCompleted
  placed : ∀ handle, state.Placed (state.pc handle)
  leader_unique : ∀ first second, (state.pc first).Leads -> (state.pc second).Leads ->
    first = second
  leader_exists : state.inProgress = true -> ∃ handle, (state.pc handle).Leads

variable {state : Coordinator Handle} {handle : Handle} {before after : ProgramCounter}
  {shared : Coordinator Handle} {trace : List (FlushEvent Handle)} {next : Coordinator Handle}
  {ticket : Nat} {event : FlushEvent Handle}

omit [DecidableEq Handle] in
theorem WellFormed.at {pc : ProgramCounter} (wellFormed : state.WellFormed)
    (here : state.pc handle = pc) : state.Placed pc :=
  here ▸ wellFormed.placed handle

omit [DecidableEq Handle] in
theorem Placed.mono {later : Coordinator Handle} {pc : ProgramCounter} (placed : state.Placed pc)
    (writes : state.writesCompleted ≤ later.writesCompleted)
    (durable : state.durableUpto ≤ later.durableUpto)
    (progress : pc.Leads -> later.inProgress = true) : later.Placed pc where
  ticket_le ticket held :=
    ⟨(placed.ticket_le ticket held).1, (placed.ticket_le ticket held).2.trans writes⟩
  target_le target held := (placed.target_le target held).trans writes
  target_covers := placed.target_covers
  succeeded_covers ticket succeeded held :=
    (placed.succeeded_covers ticket succeeded held).trans durable
  leads_inProgress := progress

omit [DecidableEq Handle] in
theorem Placed.keep (placed : state.Placed before)
    (ticket : ∀ held, after.ticket = some held -> before.ticket = some held)
    (target : ∀ held, after.target = some held -> before.target = some held)
    (succeeded : after.Succeeded -> before.Succeeded) (leads : after.Leads -> before.Leads) :
    state.Placed after where
  ticket_le held heldEq := placed.ticket_le held (ticket held heldEq)
  target_le held heldEq := placed.target_le held (target held heldEq)
  target_covers goal held goalEq heldEq :=
    placed.target_covers goal held (target goal goalEq) (ticket held heldEq)
  succeeded_covers held now heldEq := placed.succeeded_covers held (succeeded now)
    (ticket held heldEq)
  leads_inProgress now := placed.leads_inProgress (leads now)

theorem WellFormed.move {pc : ProgramCounter} (wellFormed : state.WellFormed)
    (pcs : shared.pc = state.pc) (writes : state.writesCompleted ≤ shared.writesCompleted)
    (durable : state.durableUpto ≤ shared.durableUpto)
    (durable_le : shared.durableUpto ≤ shared.writesCompleted)
    (pending_le : ∀ other, shared.pendingCommitTicket other ≤ shared.writesCompleted)
    (placed : shared.Placed pc)
    (others : ∀ other, other ≠ handle -> (state.pc other).Leads -> shared.inProgress = true)
    (unique : pc.Leads -> ∀ other, other ≠ handle -> ¬ (state.pc other).Leads)
    (leader : shared.inProgress = true ->
      pc.Leads ∨ (state.inProgress = true ∧ ¬ (state.pc handle).Leads)) :
    (shared.goto handle pc).WellFormed where
  durable_le := durable_le
  pending_le := pending_le
  placed other := by
    by_cases same : other = handle
    · rw [same, goto_pc_self]
      exact placed.mono le_rfl le_rfl placed.leads_inProgress
    · rw [goto_pc_other same, pcs]
      exact (wellFormed.placed other).mono writes durable (others other same)
  leader_unique first second firstLeads secondLeads := by
    by_cases firstSame : first = handle <;> by_cases secondSame : second = handle
    · exact firstSame.trans secondSame.symm
    · rw [firstSame, goto_pc_self] at firstLeads
      rw [goto_pc_other secondSame, pcs] at secondLeads
      exact absurd secondLeads (unique firstLeads second secondSame)
    · rw [secondSame, goto_pc_self] at secondLeads
      rw [goto_pc_other firstSame, pcs] at firstLeads
      exact absurd firstLeads (unique secondLeads first firstSame)
    · rw [goto_pc_other firstSame, pcs] at firstLeads
      rw [goto_pc_other secondSame, pcs] at secondLeads
      exact wellFormed.leader_unique first second firstLeads secondLeads
  leader_exists busy := by
    rcases leader busy with leads | ⟨wasBusy, follower⟩
    · exact ⟨handle, by simpa using leads⟩
    · obtain ⟨other, leads⟩ := wellFormed.leader_exists wasBusy
      have distinct : other ≠ handle := by
        rintro rfl
        exact follower leads
      exact ⟨other, by rwa [goto_pc_other distinct, pcs]⟩

theorem WellFormed.moveKeep (lock : Option Handle) (barriers : Nat)
    (wellFormed : state.WellFormed) (here : state.pc handle = before)
    (ticket : ∀ held, after.ticket = some held -> before.ticket = some held)
    (target : ∀ held, after.target = some held -> before.target = some held)
    (succeeded : after.Succeeded -> before.Succeeded) (leads : after.Leads ↔ before.Leads) :
    ({ state with flushLock := lock, barriers := barriers }.goto handle after).WellFormed := by
  have placed := (wellFormed.at here).keep ticket target succeeded leads.mp
  refine wellFormed.move rfl le_rfl le_rfl wellFormed.durable_le wellFormed.pending_le
    (placed.mono le_rfl le_rfl placed.leads_inProgress)
    (fun other _ => (wellFormed.placed other).leads_inProgress) ?_ ?_
  · intro nowLeads other distinct otherLeads
    exact distinct (wellFormed.leader_unique other handle otherLeads (here ▸ leads.mp nowLeads))
  · intro busy
    rw [here, <- leads]
    exact (em after.Leads).imp_right fun follower => ⟨busy, follower⟩

omit [DecidableEq Handle] in
theorem wellFormed_new : (new : Coordinator Handle).WellFormed where
  durable_le := le_rfl
  pending_le _ := le_rfl
  placed _ := by constructor <;> simp [new]
  leader_unique first _ leads := by simp [new] at leads
  leader_exists busy := by simp [new] at busy

theorem WellFormed.step
    (wellFormed : state.WellFormed) (transition : Step state event next) : next.WellFormed := by
  cases transition with
  | write => exact wellFormed
  | setDurability => exact ⟨wellFormed.durable_le, wellFormed.pending_le,
      fun other => (wellFormed.placed other).mono le_rfl le_rfl
        (wellFormed.placed other).leads_inProgress, wellFormed.leader_unique,
      wellFormed.leader_exists⟩
  | commitReady handle idle =>
    refine ⟨Nat.le_succ_of_le wellFormed.durable_le, fun other => ?_, fun other => ?_,
      wellFormed.leader_unique, wellFormed.leader_exists⟩
    · by_cases same : other = handle
      · simp [same]
      · simpa [same] using Nat.le_succ_of_le (wellFormed.pending_le other)
    · exact (wellFormed.placed other).mono (Nat.le_succ _) le_rfl
        (wellFormed.placed other).leads_inProgress
  | publish handle here =>
    refine wellFormed.move rfl (Nat.le_succ _) le_rfl (Nat.le_succ_of_le wellFormed.durable_le)
      (fun other => Nat.le_succ_of_le (wellFormed.pending_le other))
      (by constructor <;> simp) (fun other _ => (wellFormed.placed other).leads_inProgress)
      (by simp) (fun busy => .inr ⟨busy, by simp [here]⟩)
  | enterSyncCommit handle idle some =>
    refine wellFormed.move rfl le_rfl le_rfl wellFormed.durable_le ?_ ?_
      (fun other _ => (wellFormed.placed other).leads_inProgress)
      (by simp) (fun busy => .inr ⟨busy, by simp [idle]⟩)
    · intro other
      by_cases same : other = handle
      · simp [same]
      · simpa [same] using wellFormed.pending_le other
    · have bound := wellFormed.pending_le handle
      constructor <;> simp
      omega
  | lead handle here free =>
    have placed := wellFormed.at here
    have alone : ∀ other, ¬ (state.pc other).Leads := by
      intro other leads
      have := (wellFormed.placed other).leads_inProgress leads
      simp [free] at this
    refine wellFormed.move rfl le_rfl le_rfl wellFormed.durable_le wellFormed.pending_le ?_
      (fun _ _ _ => rfl) (fun _ other _ => alone other) (fun _ => .inl (by simp))
    constructor <;> simp
    simpa using placed.ticket_le
  | capture handle here =>
    have placed := wellFormed.at here
    refine wellFormed.move rfl le_rfl le_rfl wellFormed.durable_le wellFormed.pending_le ?_
      (fun other _ => (wellFormed.placed other).leads_inProgress) ?_
      (fun _ => .inl (by simp))
    · constructor <;> simp
      · simpa using placed.ticket_le
      · simpa using (placed.ticket_le _ rfl).2
      · simpa using placed.leads_inProgress
    · intro _ other distinct leads
      exact distinct (wellFormed.leader_unique other handle leads (by simp [here]))
  | fetchMax handle here =>
    have placed := wellFormed.at here
    have target_le := placed.target_le _ rfl
    refine wellFormed.move rfl le_rfl (le_max_left _ _)
      (max_le wellFormed.durable_le target_le) wellFormed.pending_le ?_
      (fun other _ => (wellFormed.placed other).leads_inProgress) ?_
      (fun _ => .inl (by simp))
    · constructor <;> simp
      · simpa using placed.ticket_le
      · exact .inr (by simpa using placed.target_covers)
      · simpa using placed.leads_inProgress
    · intro _ other distinct leads
      exact distinct (wellFormed.leader_unique other handle leads (by simp [here]))
  | guardClear handle here _ =>
    refine wellFormed.move rfl le_rfl le_rfl wellFormed.durable_le wellFormed.pending_le
      (by constructor <;> simp) ?_ (by simp) (by simp)
    intro other distinct leads
    exact absurd (wellFormed.leader_unique other handle leads (by simp [here])) distinct
  | guardUnwind handle here =>
    refine wellFormed.move rfl le_rfl le_rfl wellFormed.durable_le wellFormed.pending_le
      (by constructor <;> simp) ?_ (by simp) (by simp)
    intro other distinct leads
    exact absurd (wellFormed.leader_unique other handle leads (by simp [here])) distinct
  | coalesce => exact wellFormed
  | breakBarrier handle result broken here =>
    refine wellFormed.moveKeep state.flushLock state.barriers here ?_ ?_ ?_ ?_ <;>
      cases result <;> simp_all
  | startBarrier handle here =>
    exact wellFormed.moveKeep _ _ here (by simp) (by simp) (by simp) (by simp)
  | guardLock handle here _ =>
    refine wellFormed.moveKeep _ state.barriers here ?_ ?_ ?_ ?_ <;> simp
  | enterSync handle here | enterSyncCommitBare handle here _ | readLevel handle here
  | checkCovered handle here _ | checkMissed handle here _ | recheckMissed handle here _
  | gathered handle here | endBarrier handle here =>
    refine wellFormed.moveKeep state.flushLock state.barriers here ?_ ?_ ?_ ?_ <;> simp
  | lock handle here _ | recheckCovered handle here _ | follow handle here _
  | wake handle here _ | waitAgain handle here _ | loop handle here _ =>
    refine wellFormed.moveKeep _ state.barriers here ?_ ?_ ?_ ?_ <;> simp

theorem wellFormed_of_runs (run : (system Handle).Runs trace state) : state.WellFormed :=
  System.Runs.invariant (fun _ state => state.WellFormed)
    (fun _ initial => initial ▸ wellFormed_new) (fun _ _ _ _ wellFormed => wellFormed.step) run

/-- The trace accounts for every ticket: those published, those a running barrier
covers and those `durable_upto` has passed. -/
structure Accounted (trace : List (FlushEvent Handle)) (state : Coordinator Handle) : Prop where
  published : ∀ ticket, 0 < ticket -> ticket ≤ state.writesCompleted ->
    ∃ publisher kind, .published publisher kind ticket ∈ trace
  published_le : ∀ publisher kind ticket, .published publisher kind ticket ∈ trace ->
    0 < ticket ∧ ticket ≤ state.writesCompleted
  sync_published : ∀ handle call, (state.pc handle).call = some call -> call.kind = .sync ->
    .published handle .sync call.ticket ∈ trace
  flushing : ∀ handle call target barrier, state.pc handle = .flushing call target barrier ->
    ∀ ticket, 0 < ticket -> ticket ≤ target -> ∃ publisher kind,
      [.published publisher kind ticket,
        .barrierStarted handle barrier call.level target].Sublist trace
  flushed : ∀ handle call target barrier, state.pc handle = .flushed call target barrier ->
    ∀ ticket, 0 < ticket -> ticket ≤ target -> Flushed trace ticket call.level
  durable : ∀ ticket, 0 < ticket -> ticket ≤ state.durableUpto ->
    ∃ level, Flushed trace ticket level

omit [DecidableEq Handle] in
theorem Accounted.snoc (accounted : Accounted trace state) (event : FlushEvent Handle)
    (silent : ∀ publisher kind ticket, event ≠ .published publisher kind ticket) :
    Accounted (trace ++ [event]) state where
  published ticket positive bound := by
    obtain ⟨publisher, kind, member⟩ := accounted.published ticket positive bound
    exact ⟨publisher, kind, mem_append_left _ member⟩
  published_le publisher kind ticket member := by
    rcases mem_append.mp member with found | found
    · exact accounted.published_le publisher kind ticket found
    · exact absurd (mem_singleton.mp found).symm (silent publisher kind ticket)
  sync_published handle call inside isSync :=
    mem_append_left _ (accounted.sync_published handle call inside isSync)
  flushing handle call target barrier here ticket positive bound := by
    obtain ⟨publisher, kind, ordered⟩ :=
      accounted.flushing handle call target barrier here ticket positive bound
    exact ⟨publisher, kind, ordered.trans (sublist_append_left _ _)⟩
  flushed handle call target barrier here ticket positive bound :=
    (accounted.flushed handle call target barrier here ticket positive bound).snoc
  durable ticket positive bound := by
    obtain ⟨level, flushed⟩ := accounted.durable ticket positive bound
    exact ⟨level, flushed.snoc⟩

omit [DecidableEq Handle] in
theorem Accounted.publish (accounted : Accounted trace state) (handle : Handle) (kind : CallKind)
    (pending : Handle -> Nat) :
    Accounted (trace ++ [.published handle kind (state.writesCompleted + 1)])
      { state with writesCompleted := state.writesCompleted + 1,
                   pendingCommitTicket := pending } where
  published ticket positive bound := by
    rcases Nat.lt_or_ge state.writesCompleted ticket with fresh | old
    · obtain rfl : ticket = state.writesCompleted + 1 := Nat.le_antisymm bound fresh
      exact ⟨handle, kind, by simp⟩
    · obtain ⟨publisher, kind, member⟩ := accounted.published ticket positive old
      exact ⟨publisher, kind, mem_append_left _ member⟩
  published_le publisher kind ticket member := by
    rcases mem_append.mp member with found | found
    · have bounds := accounted.published_le publisher kind ticket found
      exact ⟨bounds.1, Nat.le_succ_of_le bounds.2⟩
    · obtain ⟨-, -, rfl⟩ : _ ∧ _ ∧ ticket = state.writesCompleted + 1 := by simpa using found
      simp
  sync_published handle call inside isSync :=
    mem_append_left _ (accounted.sync_published handle call inside isSync)
  flushing handle call target barrier here ticket positive bound := by
    obtain ⟨publisher, kind, ordered⟩ :=
      accounted.flushing handle call target barrier here ticket positive bound
    exact ⟨publisher, kind, ordered.trans (sublist_append_left _ _)⟩
  flushed handle call target barrier here ticket positive bound :=
    (accounted.flushed handle call target barrier here ticket positive bound).snoc
  durable ticket positive bound := by
    obtain ⟨level, flushed⟩ := accounted.durable ticket positive bound
    exact ⟨level, flushed.snoc⟩

theorem Accounted.move {pc : ProgramCounter} (accounted : Accounted trace state)
    (pcs : shared.pc = state.pc) (writes : shared.writesCompleted = state.writesCompleted)
    (durable : ∀ ticket, 0 < ticket -> ticket ≤ shared.durableUpto ->
      ∃ level, Flushed trace ticket level) (call : ∀ call, pc.call = some call → call.kind = .sync →
      .published handle .sync call.ticket ∈ trace)
    (flushing : ∀ call target barrier, pc = .flushing call target barrier ->
      ∀ ticket, 0 < ticket → ticket ≤ target → ∃ publisher kind, [.published publisher kind ticket,
          .barrierStarted handle barrier call.level target].Sublist trace)
    (flushed : ∀ call target barrier, pc = .flushed call target barrier ->
      ∀ ticket, 0 < ticket -> ticket ≤ target -> Flushed trace ticket call.level) :
    Accounted trace (shared.goto handle pc) where
  published ticket positive bound := accounted.published ticket positive (writes ▸ bound)
  published_le publisher kind ticket member :=
    writes ▸ accounted.published_le publisher kind ticket member
  sync_published other inner inside isSync := by
    by_cases same : other = handle
    · subst same
      exact call inner (by simpa using inside) isSync
    · rw [goto_pc_other same, pcs] at inside
      exact accounted.sync_published other inner inside isSync
  flushing other inner target barrier here := by
    by_cases same : other = handle
    · subst same
      exact flushing inner target barrier (by simpa using here)
    · rw [goto_pc_other same, pcs] at here
      exact accounted.flushing other inner target barrier here
  flushed other inner target barrier here := by
    by_cases same : other = handle
    · subst same
      exact flushed inner target barrier (by simpa using here)
    · rw [goto_pc_other same, pcs] at here
      exact accounted.flushed other inner target barrier here
  durable := durable

theorem Accounted.moveQuiet (event : FlushEvent Handle) (accounted : Accounted trace state)
    (here : state.pc handle = before) (pcs : shared.pc = state.pc)
    (writes : shared.writesCompleted = state.writesCompleted)
    (durable : shared.durableUpto = state.durableUpto)
    (silent : ∀ publisher kind ticket, event ≠ .published publisher kind ticket)
    (call : ∀ call, after.call = some call -> call.kind = .sync -> before.call = some call)
    (calm : ∀ call target barrier, after ≠ .flushing call target barrier ∧
      after ≠ .flushed call target barrier) :
    Accounted (trace ++ [event]) (shared.goto handle after) := by
  have later := accounted.snoc event silent
  refine later.move pcs writes (fun ticket positive bound =>
    later.durable ticket positive (durable ▸ bound)) ?_ ?_ ?_
  · intro inner inside isSync
    exact later.sync_published handle inner (here ▸ call inner inside isSync) isSync
  · intro inner target barrier is
    exact absurd is (calm inner target barrier).1
  · intro inner target barrier is
    exact absurd is (calm inner target barrier).2

omit [DecidableEq Handle] in
theorem accounted_new : Accounted [] (new : Coordinator Handle) := by
  constructor <;> simp [new] <;> omega

theorem Accounted.step (accounted : Accounted trace state)
    (wellFormed : state.WellFormed) (transition : Step state event next) :
    Accounted (trace ++ [event]) next := by
  cases transition with
  | write | coalesce => exact accounted.snoc _ (by simp)
  | setDurability =>
    have later := accounted.snoc (.setDurability ‹_› ‹_›) (by simp)
    exact ⟨later.published, later.published_le, later.sync_published, later.flushing,
      later.flushed, later.durable⟩
  | commitReady handle => exact accounted.publish handle .syncCommit _
  | publish handle here =>
    have later := accounted.publish handle .sync state.pendingCommitTicket
    exact later.move rfl rfl later.durable (by simp) (by simp) (by simp)
  | startBarrier handle here =>
    rename_i call target
    have later := accounted.snoc (.barrierStarted handle state.barriers call.level target) (by simp)
    refine later.move rfl rfl later.durable ?_ ?_ (by simp)
    · intro inner inside isSync
      exact later.sync_published handle inner (by simpa [here] using inside) isSync
    · -- Everything up to the target was published before the barrier started.
      rintro _ _ _ ⟨⟩ ticket positive bound
      have target_le := (wellFormed.at here).target_le target rfl
      obtain ⟨publisher, kind, member⟩ :=
        accounted.published ticket positive (bound.trans target_le)
      exact ⟨publisher, kind, (singleton_sublist.mpr member).append (List.Sublist.refl _)⟩
  | endBarrier handle here =>
    rename_i call target barrier
    have later := accounted.snoc (.barrierEnded handle barrier .ok) (by simp)
    refine later.move rfl rfl later.durable ?_ (by simp) ?_
    · intro inner inside isSync
      exact later.sync_published handle inner (by simpa [here] using inside) isSync
    · rintro _ _ _ ⟨⟩ ticket positive bound
      obtain ⟨publisher, kind, ordered⟩ :=
        accounted.flushing handle call target barrier here ticket positive bound
      exact ⟨publisher, kind, handle, barrier, target, ordered.append (List.Sublist.refl _)⟩
  | fetchMax handle here =>
    rename_i call target barrier
    have later := accounted.snoc (.internal handle) (by simp)
    refine later.move rfl rfl ?_ ?_ (by simp) (by simp)
    · intro ticket positive bound
      rcases le_max_iff.mp bound with old | new
      · exact later.durable ticket positive old
      · exact ⟨_, later.flushed handle call target barrier here ticket positive new⟩
    · intro inner inside isSync
      exact later.sync_published handle inner (by simpa [here] using inside) isSync
  | enterSync handle here | enterSyncCommitBare handle here _ | enterSyncCommit handle here _
  | readLevel handle here | checkCovered handle here _ | checkMissed handle here _
  | lock handle here _ | recheckCovered handle here _ | recheckMissed handle here _
  | follow handle here _ | lead handle here _ | wake handle here _ | waitAgain handle here _
  | loop handle here _ | gathered handle here | capture handle here
  | guardLock handle here _ | guardClear handle here _ | guardUnwind handle here
  | breakBarrier handle _ _ here =>
    exact accounted.moveQuiet _ here rfl rfl rfl (by simp) (by simp +contextual) (by simp)

variable {kind : CallKind} {leader : Handle}

theorem Step.published_fresh (transition : Step state (.published handle kind ticket) next) :
    ticket = state.writesCompleted + 1 := by
  cases transition <;> rfl

theorem Step.durable_cases (transition : Step state event next) :
    next.durableUpto = state.durableUpto ∨ ∃ handle call target barrier,
      state.pc handle = .flushed call target barrier ∧
        next.durableUpto = max state.durableUpto target := by
  cases transition with
  | fetchMax handle here => exact .inr ⟨handle, _, _, _, here, rfl⟩
  | _ => exact .inl rfl

theorem Step.durable_mono (transition : Step state event next) :
    state.durableUpto ≤ next.durableUpto := by
  rcases transition.durable_cases with same | ⟨_, _, target, _, _, grown⟩
  · exact same.ge
  · exact grown ▸ le_max_left _ target

theorem Step.round_ends (transition : Step state event next) (leads : (state.pc leader).Leads)
    (stopped : ¬ (next.pc leader).Leads) :
    next.inProgress = false ∧ next.epoch ≠ state.epoch := by
  cases transition with
  | guardClear | guardUnwind => exact ⟨rfl, nextEpoch_ne _⟩
  | write | setDurability | commitReady | coalesce => exact absurd leads stopped
  | publish handle here | startBarrier handle here | endBarrier handle here
  | fetchMax handle here | enterSync handle here | enterSyncCommitBare handle here _
  | enterSyncCommit handle here _ | readLevel handle here | checkCovered handle here _
  | checkMissed handle here _ | lock handle here _ | recheckCovered handle here _
  | recheckMissed handle here _ | follow handle here _ | lead handle here _ | wake handle here _
  | waitAgain handle here _ | loop handle here _ | gathered handle here | capture handle here
  | guardLock handle here _ | breakBarrier handle _ _ here =>
    by_cases same : leader = handle
    · subst same
      simp [here] at leads stopped
    · rw [goto_pc_other same] at stopped
      exact absurd leads stopped

theorem Step.weak_cases {target : Nat} (transition : Step state event next)
    (weak : (next.pc leader).weakTarget = some target) :
    (state.pc leader).weakTarget = some target ∨
      ∃ barrier, event = .barrierStarted leader barrier .normal target := by
  cases transition with
  | write | setDurability | commitReady | coalesce => exact .inl weak
  | publish handle here | startBarrier handle here | endBarrier handle here
  | fetchMax handle here | enterSync handle here | enterSyncCommitBare handle here _
  | enterSyncCommit handle here _ | readLevel handle here | checkCovered handle here _
  | checkMissed handle here _ | lock handle here _ | recheckCovered handle here _
  | recheckMissed handle here _ | follow handle here _ | lead handle here _ | wake handle here _
  | waitAgain handle here _ | loop handle here _ | gathered handle here | capture handle here
  | guardLock handle here _ | breakBarrier handle _ _ here | guardClear handle here _
  | guardUnwind handle here =>
    by_cases same : leader = handle
    · subst same
      simp_all
    · rw [goto_pc_other same] at weak
      exact .inl weak

/-- Every ticket that asks for a full barrier has had one before `durable_upto`
or a weak barrier's target passes it. -/
structure Strong (trace : List (FlushEvent Handle)) (state : Coordinator Handle) : Prop where
  durable : ∀ ticket, ticket ≤ state.durableUpto -> NeedsFull trace ticket ->
    Flushed trace ticket .full
  weak : ∀ leader target, (state.pc leader).weakTarget = some target ->
    ∀ ticket, ticket ≤ target -> NeedsFull trace ticket -> Flushed trace ticket .full

theorem Step.needsFull_old (transition : Step state event next)
    (old : ticket ≤ state.writesCompleted) (needs : NeedsFull (trace ++ [event]) ticket) :
    NeedsFull trace ticket := by
  refine needs.of_snoc fun handle kind same => ?_
  subst same
  have fresh := transition.published_fresh
  omega

theorem Strong.step (strong : Strong trace state) (wellFormed : state.WellFormed)
    (accounted : Accounted trace state) (transition : Step state event next)
    (kept : StrengthKept (trace ++ [event])) : Strong (trace ++ [event]) next where
  durable ticket bound needs := by
    rcases transition.durable_cases with same | ⟨leader, call, target, barrier, here, grown⟩
    · rw [same] at bound
      exact (strong.durable ticket bound
        (transition.needsFull_old (bound.trans wellFormed.durable_le) needs)).snoc
    rcases le_max_iff.mp (grown ▸ bound) with old | new
    · exact (strong.durable ticket old
        (transition.needsFull_old (old.trans wellFormed.durable_le) needs)).snoc
    have published := new.trans ((wellFormed.at here).target_le target rfl)
    have demanded := transition.needsFull_old published needs
    -- The barrier just folded in was full, or weak with its target already kept.
    obtain ⟨kind, held, level⟩ := call
    cases level with
    | full =>
      obtain ⟨publisher, kind, member, -⟩ := demanded
      have positive := (accounted.published_le publisher kind ticket member).1
      exact (accounted.flushed leader _ target barrier here ticket positive new).snoc
    | normal => exact (strong.weak leader target (by simp [here]) ticket new demanded).snoc
  weak leader target weak ticket bound needs := by
    rcases transition.weak_cases weak with same | ⟨barrier, started⟩
    · have target_le : target ≤ state.writesCompleted := by
        refine (wellFormed.placed leader).target_le target ?_
        revert same
        cases state.pc leader <;> simp +contextual
      exact (strong.weak leader target same ticket bound
        (transition.needsFull_old (bound.trans target_le) needs)).snoc
    · subst started
      exact (kept trace leader barrier target [] rfl ticket bound (needs.of_snoc (by simp))).snoc

section

variable (run : (system Handle).Runs trace state)

include run

theorem accounted_of_runs : Accounted trace state := by
  refine (System.Runs.invariant (fun trace state => state.WellFormed ∧ Accounted trace state)
    ?_ ?_ run).2
  · rintro _ rfl
    exact ⟨wellFormed_new, accounted_new⟩
  · rintro _ _ _ _ ⟨wellFormed, accounted⟩ transition
    exact ⟨wellFormed.step transition, accounted.step wellFormed transition⟩

theorem strong_of_runs (kept : StrengthKept trace) : Strong trace state := by
  refine (System.Runs.invariant (fun trace state => state.WellFormed ∧ Accounted trace state ∧
    (StrengthKept trace -> Strong trace state)) ?_ ?_ run).2.2 kept
  · rintro _ rfl
    exact ⟨wellFormed_new, accounted_new, fun _ => by constructor <;> simp [NeedsFull, new]⟩
  · rintro _ _ _ _ ⟨wellFormed, accounted, strong⟩ transition
    exact ⟨wellFormed.step transition, accounted.step wellFormed transition, fun kept =>
      (strong kept.of_snoc).step wellFormed accounted transition kept⟩

end

theorem Step.returned_covered (wellFormed : state.WellFormed)
    (transition : Step state (.returned handle kind ticket true) next) :
    ∃ call, (state.pc handle).call = some call ∧ call.kind = kind ∧ call.ticket = ticket ∧
      0 < ticket ∧ ticket ≤ state.durableUpto := by
  generalize shape : FlushEvent.returned handle kind ticket true = event at transition
  cases transition with
  | checkCovered other here covered | recheckCovered other here covered =>
    obtain ⟨rfl, rfl, rfl⟩ : handle = other ∧ kind = _ ∧ ticket = _ := by simpa using shape
    exact ⟨_, by simp [here], rfl, rfl, ((wellFormed.at here).ticket_le _ rfl).1, covered⟩
  | guardClear other here returns =>
    rename_i call result
    obtain ⟨rfl, rfl, rfl, ok⟩ :
        handle = other ∧ kind = _ ∧ ticket = _ ∧ result.isOk = true := by simpa using shape
    have placed := wellFormed.at here
    refine ⟨call, by simp [here], rfl, rfl, (placed.ticket_le _ rfl).1, ?_⟩
    exact placed.succeeded_covers _ (by simpa [BarrierResult.isOk] using ok) rfl
  | _ => simp at shape

/-- In every run of any number of handles: an `Ok` follows a barrier that started
after its ticket was published; the barrier was of the strength the ticket asks
for, if no weak barrier ever covers a ticket still owed a full one; `durable_upto`
only grows, below `writes_completed`; one handle at a time is in its barrier, the
round in progress has a leader, and a leader leaves its round cleared and with
the epoch moved. -/
theorem coordinator_acknowledges {trace : List (FlushEvent Handle)}
    {state : Coordinator Handle} (run : (system Handle).Runs trace state) :
    AcknowledgedFlushed trace ∧ (StrengthKept trace -> AcknowledgedAtStrength trace) ∧
      state.durableUpto ≤ state.writesCompleted ∧
      (∀ events later, (system Handle).Steps state events later ->
        state.durableUpto ≤ later.durableUpto) ∧
      (∀ first second, (state.pc first).InBarrier -> (state.pc second).InBarrier ->
        first = second) ∧
      (state.inProgress = true ↔ ∃ leader, (state.pc leader).Leads) ∧
      (∀ event next leader, Step state event next -> (state.pc leader).Leads ->
        ¬ (next.pc leader).Leads -> next.inProgress = false ∧ next.epoch ≠ state.epoch) := by
  have wellFormed := wellFormed_of_runs run
  refine ⟨?_, ?_, wellFormed.durable_le, ?_, ?_, ?_, ?_⟩
  · rintro before handle kind ticket after rfl
    obtain ⟨left, right, prior, transition, -⟩ := run.split
    obtain ⟨_, _, _, _, positive, covered⟩ :=
      transition.returned_covered (wellFormed_of_runs prior)
    exact (accounted_of_runs prior).durable ticket positive covered
  · rintro kept before handle kind ticket after rfl demand
    obtain ⟨left, right, prior, transition, -⟩ := run.split
    obtain ⟨call, inside, rfl, rfl, positive, covered⟩ :=
      transition.returned_covered (wellFormed_of_runs prior)
    have prefixKept : StrengthKept before := by
      intro first leader barrier target rest split
      exact kept first leader barrier target (rest ++ .returned handle call.kind call.ticket true :: after) (by simp [split])
    refine (strong_of_runs prior prefixKept).durable call.ticket covered ?_
    rcases demand with isSync | needs
    · exact ⟨handle, .sync, (accounted_of_runs prior).sync_published handle call inside isSync,
        .inl rfl⟩
    · exact needs
  · intro events later steps
    exact System.Steps.relates (fun earlier later => earlier.durableUpto ≤ later.durableUpto)
      (fun _ => le_rfl) le_trans (fun transition => Step.durable_mono transition) steps
  · intro first second firstIn secondIn
    refine wellFormed.leader_unique first second ?_ ?_
    · revert firstIn
      cases state.pc first <;> simp
    · revert secondIn
      cases state.pc second <;> simp
  · exact ⟨wellFormed.leader_exists, fun ⟨leader, leads⟩ =>
      (wellFormed.placed leader).leads_inProgress leads⟩
  · intro event next leader transition leads stopped
    exact transition.round_ends leads stopped

/-- A `sync` that leads its own round. -/
def syncTrace : List (FlushEvent Bool) :=
  [.internal true, .published true .sync 1, .internal true, .internal true, .internal true,
    .internal true, .internal true, .internal true, .barrierStarted true 0 .full 1,
    .barrierEnded true 0 .ok, .internal true, .internal true, .returned true .sync 1 true]

/-- A weak round after it: handle `true` leads for its commit, handle `false` follows with its. -/
def weakTrace : List (FlushEvent Bool) :=
  [.setDurability true .normal, .published true .syncCommit 2, .published false .syncCommit 3,
    .internal true, .internal true, .internal true, .internal true, .internal true, .internal true,
    .internal false, .internal false, .internal false, .internal false, .internal false,
    .internal false, .internal true, .internal true, .barrierStarted true 1 .normal 3,
    .barrierEnded true 1 .ok, .internal true, .internal true, .returned true .syncCommit 2 true,
    .internal false, .internal false, .returned false .syncCommit 3 true]

theorem twoRounds_runs : ∃ state, (system Bool).Runs (syncTrace ++ weakTrace) state := by
  have start : (system Bool).Steps new [] new := .refl
  have published := (start.step (Step.enterSync true rfl)).step (Step.publish true rfl)
  have missed := published.step (Step.checkMissed true rfl (by decide))
  have locked := missed.step (Step.lock true rfl rfl)
  have elected := locked.step (Step.recheckMissed true rfl (by decide))
  have leading := elected.step (Step.lead true rfl rfl)
  have captured := (leading.step (Step.gathered true rfl)).step (Step.capture true rfl)
  have flushing := captured.step (Step.startBarrier true rfl)
  have folded := (flushing.step (Step.endBarrier true rfl)).step (Step.fetchMax true rfl)
  have returned := (folded.step (Step.guardLock true rfl rfl)).step
    (Step.guardClear true rfl (by decide))
  have lowered := returned.step (Step.setDurability true .normal)
  have ready := (lowered.step (Step.commitReady true rfl)).step (Step.commitReady false rfl)
  have entered := ready.step (Step.enterSyncCommit true rfl (by decide))
  have missed := (entered.step (Step.readLevel true rfl)).step
    (Step.checkMissed true rfl (by decide))
  have elected := (missed.step (Step.lock true rfl rfl)).step
    (Step.recheckMissed true rfl (by decide))
  have leading := elected.step (Step.lead true rfl rfl)
  have joined := leading.step (Step.enterSyncCommit false rfl (by decide))
  have missed := (joined.step (Step.readLevel false rfl)).step
    (Step.checkMissed false rfl (by decide))
  have refused := (missed.step (Step.lock false rfl rfl)).step
    (Step.recheckMissed false rfl (by decide))
  have following := refused.step (Step.follow false rfl rfl)
  have captured := (following.step (Step.gathered true rfl)).step (Step.capture true rfl)
  have flushing := captured.step (Step.startBarrier true rfl)
  have folded := (flushing.step (Step.endBarrier true rfl)).step (Step.fetchMax true rfl)
  have cleared := (folded.step (Step.guardLock true rfl rfl)).step
    (Step.guardClear true rfl (by decide))
  have woken := (cleared.step (Step.wake false rfl rfl)).step (Step.loop false rfl (by decide))
  have followed := woken.step (Step.checkCovered false rfl (by decide))
  exact ⟨_, new, rfl, followed⟩

/-- The weak barrier meets the condition: the one ticket below it that asks for a full
barrier has had it. -/
theorem twoRounds_acknowledged : StrengthKept (syncTrace ++ weakTrace) ∧
    .returned false .syncCommit 3 true ∈ syncTrace ++ weakTrace ∧
      AcknowledgedAtStrength (syncTrace ++ weakTrace) := by
  have kept : StrengthKept (syncTrace ++ weakTrace) := by
    intro before handle barrier target after split ticket low needs
    rcases append_eq_append_iff.mp split with ⟨between, rfl, -⟩ | ⟨cut, whole, rest⟩
    · have first : ticket = 1 := by
        obtain ⟨publisher, kind, published, demand⟩ := needs
        have inside : syncTrace ++ between ⊆ syncTrace ++ weakTrace := fun _ member =>
          split ▸ mem_append_left _ member
        rcases demand with rfl | ⟨asker, ordered⟩
        · have member := inside published
          simp [syncTrace, weakTrace] at member
          exact member.2
        · have member := inside (ordered.subset (mem_cons_self ..))
          simp [syncTrace, weakTrace] at member
      rw [first]
      exact ⟨true, .sync, true, 0, 1, sublist_append_of_sublist_left (by decide)⟩
    · -- The weak barrier would stand in the first round, or open the second.
      cases cut with
      | nil => cases rest
      | cons event cut =>
        obtain ⟨rfl, -⟩ := cons_eq_cons.mp rest
        have member : _ ∈ syncTrace := whole ▸ mem_append_right before (mem_cons_self ..)
        simp [syncTrace] at member
  obtain ⟨state, run⟩ := twoRounds_runs
  exact ⟨kept, by decide, (coordinator_acknowledges run).2.1 kept⟩

/-- Handle `true` leads a weak round for its commit while handle `false` calls `sync`. -/
def weakCoverTrace : List (FlushEvent Bool) :=
  [.setDurability true .normal, .published true .syncCommit 1, .internal true, .internal true,
    .internal false, .published false .sync 2, .internal true, .internal true, .internal true,
    .internal true, .internal true, .internal true, .barrierStarted true 0 .normal 2,
    .barrierEnded true 0 .ok, .internal true, .returned false .sync 2 true]

/-- One `durable_upto` serves both strengths: `sync` is acknowledged by another
handle's weak barrier, with no full barrier in the whole run. -/
theorem weak_barrier_acknowledges_sync : (∃ state, (system Bool).Runs weakCoverTrace state) ∧
      ¬ AcknowledgedAtStrength weakCoverTrace := by
  constructor
  · have start : (system Bool).Steps new [] new := .refl
    have lowered := start.step (Step.setDurability true .normal)
    have ready := lowered.step (Step.commitReady true rfl)
    have entered := ready.step (Step.enterSyncCommit true rfl (by decide))
    have leveled := entered.step (Step.readLevel true rfl)
    have other := (leveled.step (Step.enterSync false rfl)).step (Step.publish false rfl)
    have missed := other.step (Step.checkMissed true rfl (by decide))
    have locked := missed.step (Step.lock true rfl rfl)
    have elected := locked.step (Step.recheckMissed true rfl (by decide))
    have leading := elected.step (Step.lead true rfl rfl)
    have captured := (leading.step (Step.gathered true rfl)).step (Step.capture true rfl)
    have flushing := captured.step (Step.startBarrier true rfl)
    have folded := (flushing.step (Step.endBarrier true rfl)).step (Step.fetchMax true rfl)
    have returned := folded.step (Step.checkCovered false rfl (by decide))
    exact ⟨_, new, rfl, returned⟩
  · intro acknowledged
    obtain ⟨publisher, kind, leader, barrier, target, ordered⟩ :=
      acknowledged weakCoverTrace.dropLast false .sync 2 [] rfl (.inl rfl)
    have member : .barrierStarted leader barrier .full target ∈ weakCoverTrace.dropLast :=
      ordered.subset (by simp)
    simp [weakCoverTrace] at member

end Coordinator

end InlaySql.Device
