import InlaySql.Btree.Absorb
import InlaySql.Btree.Splits
import InlaySql.Btree.Writers
import InlaySql.Wal.Log

/-!
# Leading a cohort

A commit that holds the gate also commits the transactions parked behind it: it puts
each on its own handle, rebases it on what the one before left, appends its record to
the same buffer and writes its pages. Members that no longer fit the region are handed
back untouched.

The result is what the same transactions leave when they commit one after another.
-/

namespace InlaySql.Btree

open List Lib Wal

/-- A device with the log region the gate holder appends to: what the region holds so
far and the state block it was last emptied at. -/
structure RegionLog where
  shared : Shared
  start : Nat
  stop : Nat
  written : Bytes
  block : Point

namespace RegionLog

/-- Where the next record goes. -/
def appendOffset (device : RegionLog) : Nat := device.start + device.written.length

/-- The committed state. -/
def point (device : RegionLog) : Point :=
  ⟨device.shared.root, device.shared.next, device.shared.seq⟩

/-- Make room for `length` bytes: a region too full for them is emptied, with the
committed state in the state block first. -/
def place (device : RegionLog) (length : Nat) : RegionLog :=
  if device.appendOffset + length > device.stop then
    { device with block := device.point, written := [] }
  else device

/-- Append records that lead to `point`, after the pages they name. -/
def append (device : RegionLog) (area : Nat -> Bytes) (records : Bytes) (point : Point) :
    RegionLog :=
  { device with
    shared := { area, root := point.root, next := point.next, seq := point.seq }
    written := device.written ++ records }

/-- `commit` without a cohort. -/
def commit (formatVersion : Nat) (device : RegionLog) (self : CowBTree) :
    CommitOutcome × CowBTree × RegionLog :=
  if self.hasPending then
    match self.prepareCommit (Pages.ofArea self.pageSize device.shared.area) formatVersion
      device.shared.root device.shared.next device.shared.seq with
    | .error (error, left) => (.failed error, left, device)
    | .ok none => (.conflict, self.resetTo device.shared.root device.shared.next, device)
    | .ok (some (ready, record)) =>
      let records := encodeRecord formatVersion record
      let placed := device.place records.length
      (.committed, ready.settled,
        placed.append (ready.writeDirtyPages device.shared.area) records record.point)
  else (.committed, self, device)

end RegionLog

/-- What a leader decided about a member. -/
inductive CohortMember where
  | committed (point : Point)
  | conflict (point : Point)
  | declined
  deriving DecidableEq, Repr

/-- A leader at work: its handle, the data area, the state the last member left and
the records so far. -/
structure Leading where
  self : CowBTree
  area : Nat -> Bytes
  base : Point
  records : Bytes

namespace Leading

/-- `reset_to` the base. -/
def reset (leading : Leading) (self : CowBTree) : Leading :=
  { leading with self := self.resetTo leading.base.root leading.base.next }

/-- `absorb_member`: what became of the member, with the operations that go back. -/
def absorbMember (formatVersion available : Nat) (leading : Leading) (txn : AbsorbTxn) :
    CohortMember × PendingOps × Leading :=
  let base := leading.base
  let self := { leading.self with
    root := txn.root, pendingRoot := txn.root, pendingNext := leading.self.nextPageId
    pendingOps := txn.ops, hasPending := true }
  match self.rebasePending (Pages.ofArea self.pageSize leading.area) base.root base.next with
  | .ok none => (.conflict base, self.pendingOps, leading.reset self)
  | .error (_, left) => (.declined, txn.ops, leading.reset left)
  | .ok (some rebased) =>
    match rebased.materializeDirty with
    | .error _ => (.declined, txn.ops, leading.reset rebased)
    | .ok ready =>
      let record := ready.pendingRecord base.root base.seq
      let records := leading.records ++ encodeRecord formatVersion record
      if records.length > available ∨
          records.length - leading.records.length > maxRecordLen ready.pageSize then
        (.declined, txn.ops, leading.reset ready)
      else
        (.committed record.point, ∅,
          { self := { ready with dirty := ∅ }
            area := ready.writeDirtyPages leading.area, base := record.point, records })

/-- The loop of `lead_cohort`. After the first refusal the rest is declined unseen. -/
def leadCohort (formatVersion available : Nat) :
    Leading -> Bool -> List (Nat × AbsorbTxn) -> List (Nat × CohortMember × PendingOps) × Leading
  | leading, _, [] => ([], leading)
  | leading, stopped, (token, txn) :: members =>
    if stopped ∨ leading.records.length * 2 ≥ available ∨
        txn.ops.keys.any (freeListPrefix.isPrefixOf ·) then
      let rest := leadCohort formatVersion available leading true members
      ((token, .declined, txn.ops) :: rest.1, rest.2)
    else
      match leading.absorbMember formatVersion available txn with
      | (.declined, ops, leading) =>
        let rest := leadCohort formatVersion available leading true members
        ((token, .declined, ops) :: rest.1, rest.2)
      | (decision, ops, leading) =>
        let rest := leadCohort formatVersion available leading false members
        ((token, decision, ops) :: rest.1, rest.2)

end Leading

namespace RegionLog

/-- `commit` with the cohort taken at its gate hold: the outcome, the leader's handle,
the device and what became of each member. -/
def commitLeading (formatVersion : Nat) (device : RegionLog) (self : CowBTree)
    (members : List (Nat × AbsorbTxn)) :
    CommitOutcome × CowBTree × RegionLog × List (Nat × CohortMember × PendingOps) :=
  let declined := members.map fun member => (member.1, CohortMember.declined, member.2.ops)
  match self.prepareCommit (Pages.ofArea self.pageSize device.shared.area) formatVersion
    device.shared.root device.shared.next device.shared.seq with
  | .error (error, left) => (.failed error, left, device, declined)
  | .ok none => (.conflict, self.resetTo device.shared.root device.shared.next, device, declined)
  | .ok (some (ready, record)) =>
    let records := encodeRecord formatVersion record
    let placed := device.place records.length
    let leading : Leading :=
      { self := { ready with dirty := ∅ }, area := ready.writeDirtyPages device.shared.area
        base := record.point, records }
    let (cohort, led) := leading.leadCohort formatVersion (placed.stop - placed.appendOffset)
      false members
    -- The leader's own root goes back; its page counter stays where the members left it.
    let self := { led.self with
      pendingRoot := record.root, pendingNext := max led.self.pendingNext record.next }
    (.committed, self.settled, placed.append led.area led.records led.base, cohort)

end RegionLog

/-! ## What a commit depends on -/

namespace CowBTree

variable {pages : Pages} {self other : CowBTree} {root next : Nat}

theorem leaving_eq_ok {α : Type} {result : Except Error α} {value : α} :
    self.leaving result = .ok value ↔ result = .ok value := by
  cases result <;> simp [leaving]

variable {outcome : Option CowBTree} {ops : List (Bytes × Option Bytes)} {rebased : CowBTree}

theorem rebasePending_eq_ok : self.rebasePending pages root next = .ok outcome ↔
      ∃ found, conflicts (getAt self.pageSize pages (max next self.nextPageId) self.root)
          (getAt self.pageSize pages (max next self.nextPageId) root) self.pendingOps.keys =
            .ok found ∧
        (found = true ∧ outcome = none ∨ found = false ∧ ∃ ops, mergeMonotonicMetadata
            (getAt self.pageSize pages (max next self.nextPageId) root) self.pendingOps = .ok ops ∧
          ∃ rebased, replay pages (self.resetTo root next) ops.toList = .ok rebased ∧
            outcome = some rebased) := by
  constructor
  · intro done
    obtain ⟨found, isFound, rest⟩ := bind_eq_ok done
    refine ⟨found, leaving_eq_ok.mp isFound, ?_⟩
    cases found with
    | true =>
      cases rest
      exact .inl ⟨rfl, rfl⟩
    | false =>
      obtain ⟨ops, merged, rest⟩ := bind_eq_ok rest
      obtain ⟨rebased, replayed, result⟩ := bind_eq_ok rest
      cases result
      exact .inr ⟨rfl, ops, leaving_eq_ok.mp merged, rebased, replayed, rfl⟩
  · rintro ⟨found, isFound, ⟨rfl, rfl⟩ | ⟨rfl, ops, merged, rebased, replayed, rfl⟩⟩
    · simp only [rebasePending, isFound, leaving, bind, Except.bind]
      rfl
    · simp only [rebasePending, isFound, merged, replayed, leaving, bind, Except.bind]
      rfl

theorem rebasePending_congr (size : other.pageSize = self.pageSize)
    (sameRoot : other.root = self.root) (ops : other.pendingOps = self.pendingOps)
    (below : self.nextPageId ≤ next) (otherBelow : other.nextPageId ≤ next) :
    other.rebasePending pages root next = .ok outcome ↔
      self.rebasePending pages root next = .ok outcome := by
  have counter : max next other.nextPageId = max next self.nextPageId := by
    rw [max_eq_left below, max_eq_left otherBelow]
  have start : other.resetTo root next = self.resetTo root next := by
    simp only [resetTo, size, counter]
  rw [rebasePending_eq_ok, rebasePending_eq_ok, size, sameRoot, ops, counter, start]

theorem replay_frame {tree after : CowBTree} (done : replay pages tree ops = .ok after) :
    after.pageSize = tree.pageSize ∧ after.nextPageId = tree.nextPageId ∧
      tree.readNext ≤ after.readNext ∧ (after = tree ∨ after.hasPending = true) := by
  induction ops generalizing tree with
  | nil =>
    cases done
    exact ⟨rfl, rfl, le_rfl, .inl rfl⟩
  | cons op ops ih =>
    obtain ⟨middle, isMiddle, rest⟩ := bind_eq_ok done
    have wrote := redo_wrote (leaving_ok isMiddle)
    obtain ⟨size, counter, grows, pending⟩ := ih rest
    refine ⟨size.trans wrote.pageSize, counter.trans wrote.nextPageId,
      wrote.next_le.trans grows, .inr ?_⟩
    rcases pending with rfl | pending
    · exact wrote.hasPending
    · exact pending

theorem replay_left {tree left : CowBTree} {error : Error}
    (failed : replay pages tree ops = .error (error, left)) :
    left.pageSize = tree.pageSize ∧ left.nextPageId = tree.nextPageId := by
  induction ops generalizing tree with
  | nil => cases failed
  | cons op ops ih =>
    rw [replay] at failed
    cases done : tree.redo pages op with
    | error failure =>
      rw [done] at failed
      cases failed
      exact ⟨rfl, rfl⟩
    | ok middle =>
      rw [done] at failed
      have wrote := redo_wrote done
      obtain ⟨size, counter⟩ := ih failed
      exact ⟨size.trans wrote.pageSize, counter.trans wrote.nextPageId⟩

theorem rebasePending_left {left : CowBTree} {error : Error} (below : self.nextPageId ≤ next)
    (failed : self.rebasePending pages root next = .error (error, left)) :
    left.pageSize = self.pageSize ∧ left.nextPageId ≤ next := by
  unfold rebasePending at failed
  cases tested : conflicts (getAt self.pageSize pages (max next self.nextPageId) self.root)
      (getAt self.pageSize pages (max next self.nextPageId) root) self.pendingOps.keys with
  | error failure =>
    simp only [tested, leaving, bind, Except.bind] at failed
    cases failed
    exact ⟨rfl, below⟩
  | ok found =>
    simp only [tested, leaving, bind, Except.bind] at failed
    cases found with
    | true => cases failed
    | false =>
      simp only [Bool.false_eq_true, if_false] at failed
      cases merged : mergeMonotonicMetadata
          (getAt self.pageSize pages (max next self.nextPageId) root) self.pendingOps with
      | error failure =>
        simp only [merged] at failed
        cases failed
        exact ⟨rfl, below⟩
      | ok ops =>
        simp only [merged] at failed
        cases replayed : replay pages (self.resetTo root next) ops.toList with
        | ok rebased =>
          simp only [replayed] at failed
          cases failed
        | error failure =>
          simp only [replayed] at failed
          cases failed
          obtain ⟨size, counter⟩ := replay_left replayed
          exact ⟨size, counter.le.trans (max_le le_rfl below)⟩

theorem rebasePending_frame (below : self.nextPageId ≤ next)
    (done : self.rebasePending pages root next = .ok (some rebased)) :
    rebased.pageSize = self.pageSize ∧ rebased.nextPageId = next ∧
      next ≤ rebased.pendingNext := by
  obtain ⟨found, -, ⟨-, absurd⟩ | ⟨-, ops, -, same, replayed, isRebased⟩⟩ :=
    rebasePending_eq_ok.mp done
  · cases absurd
  · cases isRebased
    obtain ⟨size, counter, grows, pending⟩ := replay_frame replayed
    have start : (self.resetTo root next).nextPageId = next := max_eq_left below
    have startNext : (self.resetTo root next).readNext = next := start
    refine ⟨size, counter.trans start, ?_⟩
    rcases pending with rfl | pending
    · exact (max_eq_left below).ge
    · rw [startNext, readNext_of_pending pending] at grows
      exact grows

theorem materializeDirty_frame {ready : CowBTree} (encoded : rebased.materializeDirty = .ok ready) :
    ready.pageSize = rebased.pageSize ∧ ready.nextPageId = rebased.nextPageId ∧
      ready.pendingNext = rebased.pendingNext := by
  obtain ⟨dirty, -, result⟩ := bind_eq_ok encoded
  cases result
  exact ⟨rfl, rfl, rfl⟩

theorem prepareCommit_eq_some {formatVersion seq : Nat} {ready : CowBTree} {record : WalRecord} :
    self.prepareCommit pages formatVersion root next seq = .ok (some (ready, record)) ↔
      ∃ rebased, self.rebasePending pages root next = .ok (some rebased) ∧
        rebased.materializeDirty = .ok ready ∧ record = ready.pendingRecord root seq ∧
        (encodeRecord formatVersion record).length ≤ maxRecordLen self.pageSize := by
  constructor
  · intro done
    obtain ⟨isRecord, short⟩ := prepareCommit_record done
    obtain ⟨outcome, isOutcome, rest⟩ := bind_eq_ok done
    cases outcome with
    | none => cases rest
    | some rebased =>
      obtain ⟨materialized, isMaterialized, rest⟩ := bind_eq_ok rest
      simp only at rest
      split at rest
      · cases rest
      · cases rest
        exact ⟨rebased, isOutcome, leaving_eq_ok.mp isMaterialized, isRecord, short⟩
  · rintro ⟨rebased, isRebased, isReady, rfl, short⟩
    simp only [prepareCommit, isRebased, isReady, leaving, bind, Except.bind, if_neg (not_lt.mpr short)]
    rfl

theorem prepareCommit_left {formatVersion seq : Nat} {left : CowBTree} {error : Error}
    (below : self.nextPageId ≤ next)
    (failed : self.prepareCommit pages formatVersion root next seq = .error (error, left)) :
    left.pageSize = self.pageSize ∧ left.nextPageId ≤ next := by
  unfold prepareCommit at failed
  cases rebase : self.rebasePending pages root next with
  | error failure =>
    rw [rebase] at failed
    cases failed
    exact rebasePending_left below rebase
  | ok outcome =>
    cases outcome with
    | none =>
      rw [rebase] at failed
      cases failed
    | some rebased =>
      obtain ⟨size, counter, -⟩ := rebasePending_frame below rebase
      cases encoded : rebased.materializeDirty with
      | error failure =>
        simp only [rebase, encoded, leaving, bind, Except.bind] at failed
        cases failed
        exact ⟨size, counter.le⟩
      | ok ready =>
        obtain ⟨readySize, readyCounter, -⟩ := materializeDirty_frame encoded
        simp only [rebase, encoded, leaving, bind, Except.bind] at failed
        split at failed
        · cases failed
          exact ⟨readySize.trans size, (readyCounter.trans counter).le⟩
        · cases failed

theorem prepareCommit_eq_none {formatVersion seq : Nat} :
    self.prepareCommit pages formatVersion root next seq = .ok none ↔
      self.rebasePending pages root next = .ok none := by
  constructor
  · intro done
    obtain ⟨outcome, isOutcome, rest⟩ := bind_eq_ok done
    cases outcome with
    | none => exact isOutcome
    | some rebased =>
      obtain ⟨ready, -, rest⟩ := bind_eq_ok rest
      simp only at rest
      split at rest <;> cases rest
  · intro conflict
    rw [prepareCommit, conflict]
    rfl

end CowBTree

/-! ## One member -/

namespace Leading

/-- What a leader keeps from member to member: the page size, and page counters no
further than the state the last member left. -/
structure Within (pageSize : Nat) (leading : Leading) : Prop where
  size : leading.self.pageSize = pageSize
  counter : leading.self.nextPageId ≤ leading.base.next
  pending : leading.self.pendingNext ≤ leading.base.next

/-- The device as it stands once the records so far are appended. -/
def device (leading : Leading) (placed : RegionLog) : RegionLog :=
  placed.append leading.area leading.records leading.base

/-- A handle as its owner parks it. -/
def parked (self : CowBTree) : AbsorbTxn := { root := self.root, ops := self.pendingOps }

variable {pageSize formatVersion : Nat} {leading : Leading} {placed : RegionLog}
  {member : CowBTree}

theorem Within.reset {self : CowBTree}
    (size : self.pageSize = pageSize) (counter : self.nextPageId ≤ leading.base.next) :
    (leading.reset self).Within pageSize :=
  ⟨size, max_le le_rfl counter, max_le le_rfl counter⟩

theorem device_commit {ready : CowBTree} {record : WalRecord}
    (prepared : member.prepareCommit (Pages.ofArea member.pageSize leading.area) formatVersion
      leading.base.root leading.base.next leading.base.seq = .ok (some (ready, record)))
    (pending : member.hasPending = true)
    (filled : 0 < leading.records.length)
    (fits : (leading.records ++ encodeRecord formatVersion record).length ≤
      placed.stop - placed.appendOffset) :
    (leading.device placed).commit formatVersion member = (.committed, ready.settled,
      placed.append (ready.writeDirtyPages leading.area)
        (leading.records ++ encodeRecord formatVersion record) record.point) := by
  have stays : (leading.device placed).place (encodeRecord formatVersion record).length =
      leading.device placed := by
    unfold RegionLog.place
    rw [if_neg]
    simp only [Leading.device, RegionLog.append, RegionLog.appendOffset, length_append] at fits ⊢
    omega
  unfold RegionLog.commit
  rw [if_pos pending]
  change (match member.prepareCommit (Pages.ofArea member.pageSize leading.area) formatVersion
      leading.base.root leading.base.next leading.base.seq with
    | .error (error, left) => _
    | .ok none => _
    | .ok (some (ready, record)) => _) = _
  rw [prepared]
  simp only [stays]
  simp only [Leading.device, RegionLog.append, append_assoc]

theorem device_conflict (conflict : member.rebasePending (Pages.ofArea member.pageSize leading.area)
      leading.base.root leading.base.next = .ok none)
    (pending : member.hasPending = true) :
    (leading.device placed).commit formatVersion member = (.conflict,
      member.resetTo leading.base.root leading.base.next, leading.device placed) := by
  have prepared : member.prepareCommit (Pages.ofArea member.pageSize leading.area) formatVersion
      leading.base.root leading.base.next leading.base.seq = .ok none :=
    CowBTree.prepareCommit_eq_none.mpr conflict
  unfold RegionLog.commit
  rw [if_pos pending]
  change (match member.prepareCommit (Pages.ofArea member.pageSize leading.area) formatVersion
      leading.base.root leading.base.next leading.base.seq with
    | .error (error, left) => _
    | .ok none => _
    | .ok (some (ready, record)) => _) = _
  rw [prepared]
  rfl

/-- A member is committed as its own commit on the leader's records would be, conflicts
as that would, or leaves no trace. -/
theorem absorbMember_cases {available : Nat} (within : leading.Within pageSize)
    (size : member.pageSize = pageSize) (pending : member.hasPending = true)
    (counter : member.nextPageId ≤ leading.base.next) (filled : 0 < leading.records.length)
    (room : available = placed.stop - placed.appendOffset)
    {decision : CohortMember} {ops : PendingOps} {next : Leading}
    (done : leading.absorbMember formatVersion available (parked member) = (decision, ops, next)) :
    next.Within pageSize ∧ leading.base.next ≤ next.base.next ∧ 0 < next.records.length ∧
      ((decision = .committed next.base ∧ ∃ handle,
          (leading.device placed).commit formatVersion member =
            (.committed, handle, next.device placed)) ∨
        (decision = .conflict leading.base ∧ next.device placed = leading.device placed ∧
          ∃ handle, (leading.device placed).commit formatVersion member =
            (.conflict, handle, leading.device placed)) ∨
        (decision = .declined ∧ ops = member.pendingOps ∧ next.area = leading.area ∧
          next.base = leading.base ∧ next.records = leading.records)) := by
  let self : CowBTree := { leading.self with
    root := member.root, pendingRoot := member.root, pendingNext := leading.self.nextPageId
    pendingOps := member.pendingOps, hasPending := true }
  have sameSize : self.pageSize = member.pageSize := within.size.trans size.symm
  have below : self.nextPageId ≤ leading.base.next := within.counter
  have same : ∀ outcome, self.rebasePending (Pages.ofArea self.pageSize leading.area)
      leading.base.root leading.base.next = .ok outcome ↔ member.rebasePending
        (Pages.ofArea member.pageSize leading.area) leading.base.root leading.base.next =
          .ok outcome := by
    intro outcome
    rw [sameSize]
    exact CowBTree.rebasePending_congr sameSize rfl rfl counter within.counter
  simp only [absorbMember, parked] at done
  change (match self.rebasePending (Pages.ofArea self.pageSize leading.area) leading.base.root
      leading.base.next with
    | .ok none => _
    | .error (_, left) => _
    | .ok (some rebased) => _) = _ at done
  cases rebase : self.rebasePending (Pages.ofArea self.pageSize leading.area) leading.base.root
      leading.base.next with
  | error failure =>
    obtain ⟨error, left⟩ := failure
    rw [rebase] at done
    cases done
    obtain ⟨leftSize, leftCounter⟩ := CowBTree.rebasePending_left below rebase
    exact ⟨Within.reset (leftSize.trans within.size) leftCounter, le_rfl, filled,
      .inr (.inr ⟨rfl, rfl, rfl, rfl, rfl⟩)⟩
  | ok outcome =>
    rw [rebase] at done
    cases outcome with
    | none =>
      cases done
      exact ⟨Within.reset within.size within.counter, le_rfl, filled,
        .inr (.inl ⟨rfl, rfl, _, device_conflict ((same none).mp rebase) pending⟩)⟩
    | some rebased =>
      obtain ⟨rebasedSize, rebasedCounter, grows⟩ :=
        CowBTree.rebasePending_frame below rebase
      simp only at done
      cases encode : rebased.materializeDirty with
      | error failure =>
        rw [encode] at done
        cases done
        exact ⟨Within.reset (rebasedSize.trans within.size) rebasedCounter.le, le_rfl, filled,
          .inr (.inr ⟨rfl, rfl, rfl, rfl, rfl⟩)⟩
      | ok ready =>
        obtain ⟨readySize, readyCounter, readyNext⟩ :=
          CowBTree.materializeDirty_frame encode
        rw [encode] at done
        simp only at done
        split at done
        · cases done
          exact ⟨Within.reset ((readySize.trans rebasedSize).trans within.size)
            (readyCounter.trans rebasedCounter).le, le_rfl, filled,
            .inr (.inr ⟨rfl, rfl, rfl, rfl, rfl⟩)⟩
        · rename_i fits
          cases done
          rw [not_or, not_lt, not_lt, room] at fits
          have short : (encodeRecord formatVersion (ready.pendingRecord leading.base.root
              leading.base.seq)).length ≤ maxRecordLen member.pageSize := by
            have whole := fits.2
            rw [length_append, Nat.add_sub_cancel_left, readySize, rebasedSize, sameSize] at whole
            exact whole
          have prepared := CowBTree.prepareCommit_eq_some.mpr
            ⟨rebased, (same _).mp rebase, encode, rfl, short⟩
          have onward : leading.base.next ≤ ready.pendingNext := grows.trans readyNext.ge
          refine ⟨⟨(readySize.trans rebasedSize).trans within.size, ?_, le_rfl⟩, onward, ?_,
            .inl ⟨rfl, _, device_commit prepared pending filled fits.1⟩⟩
          · exact (readyCounter.trans rebasedCounter).le.trans onward
          · rw [length_append]
            omega

end Leading

/-! ## The cohort -/

namespace RegionLog

/-- Commits one after another: what each answered, with the committed state it left. -/
def commitAll (formatVersion : Nat) :
    RegionLog -> List CowBTree -> List (CommitOutcome × Point) × RegionLog
  | device, [] => ([], device)
  | device, self :: rest =>
    let (outcome, _, after) := device.commit formatVersion self
    let later := commitAll formatVersion after rest
    ((outcome, after.point) :: later.1, later.2)

end RegionLog

/-- The answer a member gets, unless it is handed back. -/
def CohortMember.verdict : CohortMember -> Option (CommitOutcome × Point)
  | .committed point => some (.committed, point)
  | .conflict point => some (.conflict, point)
  | .declined => none

/-- The members of a cohort the leader answered for, in order. -/
def answeredMembers (members : List (Nat × CowBTree))
    (cohort : List (Nat × CohortMember × PendingOps)) : List CowBTree :=
  (members.zip cohort).filterMap fun pair => pair.2.2.1.verdict.map fun _ => pair.1.2

/-- What a leader hands back is what was parked. -/
def HandedBack (members : List (Nat × CowBTree))
    (cohort : List (Nat × CohortMember × PendingOps)) : Prop :=
  cohort.map Prod.fst = members.map Prod.fst ∧ ∀ pair ∈ members.zip cohort,
    pair.2.2.1 = .declined -> pair.2.2.2 = pair.1.2.pendingOps

namespace Leading

variable {pageSize formatVersion : Nat} {placed : RegionLog}

theorem leadCohort_stopped (available : Nat) (leading : Leading) (members : List (Nat × CowBTree)) :
    leading.leadCohort formatVersion available true
        (members.map fun member => (member.1, parked member.2)) =
      (members.map fun member => (member.1, .declined, member.2.pendingOps), leading) := by
  induction members with
  | nil => rfl
  | cons member members ih =>
    simp only [map_cons, leadCohort, true_or, if_true, ih]
    rfl

end Leading

theorem answeredMembers_declined (members : List (Nat × CowBTree)) : answeredMembers members
      (members.map fun member => (member.1, .declined, member.2.pendingOps)) = [] := by
  induction members with
  | nil => rfl
  | cons member members ih => exact ih

theorem handedBack_declined (members : List (Nat × CowBTree)) : HandedBack members
      (members.map fun member => (member.1, .declined, member.2.pendingOps)) := by
  constructor
  · simp
  · induction members with
    | nil => simp
    | cons member members ih => simpa using ih

theorem HandedBack.cons {members : List (Nat × CowBTree)}
    {cohort : List (Nat × CohortMember × PendingOps)} {member : Nat × CowBTree}
    {decision : CohortMember} {ops : PendingOps}
    (back : decision = .declined -> ops = member.2.pendingOps)
    (rest : HandedBack members cohort) :
    HandedBack (member :: members) ((member.1, decision, ops) :: cohort) := by
  obtain ⟨tokens, handed⟩ := rest
  refine ⟨by simp [tokens], ?_⟩
  intro pair isPair
  rcases mem_cons.mp isPair with rfl | later
  · exact back
  · exact handed pair later

namespace Leading

variable {pageSize formatVersion : Nat} {placed : RegionLog}

/-- **The loop.** A leader's answers, records and pages are those of its members' own
commits, in turn. -/
theorem leadCohort_sequential {available : Nat}
    (room : available = placed.stop - placed.appendOffset) {leading : Leading}
    (within : leading.Within pageSize) (filled : 0 < leading.records.length)
    {members : List (Nat × CowBTree)}
    (ready : ∀ member ∈ members, member.2.pageSize = pageSize ∧
      member.2.hasPending = true ∧ member.2.nextPageId ≤ leading.base.next)
    {cohort : List (Nat × CohortMember × PendingOps)} {led : Leading}
    (done : leading.leadCohort formatVersion available false
      (members.map fun member => (member.1, parked member.2)) = (cohort, led)) :
    led.Within pageSize ∧ leading.base.next ≤ led.base.next ∧ HandedBack members cohort ∧
      (leading.device placed).commitAll formatVersion (answeredMembers members cohort) =
        (cohort.filterMap fun member => member.2.1.verdict, led.device placed) := by
  induction members generalizing leading cohort with
  | nil =>
    cases done
    exact ⟨within, le_rfl, ⟨rfl, by simp⟩, rfl⟩
  | cons member members ih =>
    have stop : ∀ {next : Leading} {ops : PendingOps}, next.Within pageSize ->
        next.base = leading.base -> next.device placed = leading.device placed ->
        ops = member.2.pendingOps ->
        ((member.1, CohortMember.declined, ops) :: (next.leadCohort formatVersion available true
            (members.map fun member => (member.1, parked member.2))).1,
          (next.leadCohort formatVersion available true
            (members.map fun member => (member.1, parked member.2))).2) = (cohort, led) ->
        led.Within pageSize ∧ leading.base.next ≤ led.base.next ∧
          HandedBack (member :: members) cohort ∧
          (leading.device placed).commitAll formatVersion
            (answeredMembers (member :: members) cohort) =
              (cohort.filterMap fun member => member.2.1.verdict, led.device placed) := by
      intro next ops isWithin sameBase sameDevice isOps result
      rw [leadCohort_stopped] at result
      cases result
      refine ⟨isWithin, sameBase ▸ le_rfl, .cons (fun _ => isOps) (handedBack_declined members), ?_⟩
      have none : answeredMembers (member :: members) ((member.1, .declined, ops) ::
          members.map fun member => (member.1, .declined, member.2.pendingOps)) = [] :=
        answeredMembers_declined members
      rw [none, sameDevice]
      simp [RegionLog.commitAll, CohortMember.verdict]
    simp only [map_cons, leadCohort, Bool.false_eq_true, false_or] at done
    split at done
    · exact stop within rfl rfl rfl done
    · obtain ⟨size, pending, counter⟩ := ready member (by simp)
      generalize absorbed : leading.absorbMember formatVersion available (parked member.2) =
        result at done
      obtain ⟨decision, ops, next⟩ := result
      obtain ⟨nextWithin, onward, nextFilled, outcomes⟩ :=
        absorbMember_cases within size pending counter filled room absorbed
      have later : ∀ other ∈ members, other.2.pageSize = pageSize ∧
          other.2.hasPending = true ∧ other.2.nextPageId ≤ next.base.next := by
        intro other isOther
        obtain ⟨size, pending, counter⟩ := ready other (mem_cons_of_mem _ isOther)
        exact ⟨size, pending, counter.trans onward⟩
      rcases outcomes with ⟨rfl, handle, commits⟩ | ⟨rfl, sameDevice, handle, conflicts⟩ |
        ⟨rfl, isOps, sameArea, sameBase, sameRecords⟩
      · simp only at done
        generalize rest : next.leadCohort formatVersion available false
          (members.map fun member => (member.1, parked member.2)) = tail at done
        obtain ⟨tailCohort, tailLed⟩ := tail
        cases done
        obtain ⟨ledWithin, grows, back, sequential⟩ := ih nextWithin nextFilled later rest
        refine ⟨ledWithin, onward.trans grows, .cons (by simp) back, ?_⟩
        have answered : answeredMembers (member :: members)
            ((member.1, .committed next.base, ops) :: tailCohort) =
              member.2 :: answeredMembers members tailCohort := rfl
        rw [answered, RegionLog.commitAll, commits]
        simp only [sequential, filterMap_cons, CohortMember.verdict]
        rfl
      · simp only at done
        generalize rest : next.leadCohort formatVersion available false
          (members.map fun member => (member.1, parked member.2)) = tail at done
        obtain ⟨tailCohort, tailLed⟩ := tail
        cases done
        obtain ⟨ledWithin, grows, back, sequential⟩ := ih nextWithin nextFilled later rest
        refine ⟨ledWithin, onward.trans grows, .cons (by simp) back, ?_⟩
        have answered : answeredMembers (member :: members)
            ((member.1, .conflict leading.base, ops) :: tailCohort) =
              member.2 :: answeredMembers members tailCohort := rfl
        rw [sameDevice] at sequential
        rw [answered, RegionLog.commitAll, conflicts]
        simp only [sequential, filterMap_cons, CohortMember.verdict]
        rfl
      · refine stop nextWithin sameBase ?_ isOps done
        rw [Leading.device, Leading.device, sameArea, sameBase, sameRecords]

end Leading

theorem encodeRecord_filled (formatVersion : Nat) (record : WalRecord) :
    0 < (encodeRecord formatVersion record).length := by
  simp only [encodeRecord, length_append, length_leBytes]
  omega

namespace RegionLog

variable {pageSize formatVersion : Nat} {device : RegionLog}

variable {after : RegionLog} {handles : List CowBTree}

/-- A leader's commit and its cohort are the leader's own commit and then its members',
as far as it answered for them. -/
theorem commitLeading_sequential {leader : CowBTree} (size : leader.pageSize = pageSize)
    (pending : leader.hasPending = true) (counter : leader.nextPageId ≤ device.shared.next)
    {members : List (Nat × CowBTree)} (ready : ∀ member ∈ members, member.2.pageSize = pageSize ∧
      member.2.hasPending = true ∧ member.2.nextPageId ≤ device.shared.next)
    {outcome : CommitOutcome} {self : CowBTree} {cohort : List (Nat × CohortMember × PendingOps)}
    (done : device.commitLeading formatVersion leader
      (members.map fun member => (member.1, Leading.parked member.2)) =
        (outcome, self, after, cohort)) :
    HandedBack members cohort ∧ ∃ handle own,
      device.commit formatVersion leader = (outcome, handle, own) ∧
      device.commitAll formatVersion (leader :: answeredMembers members cohort) =
        ((outcome, own.point) :: cohort.filterMap fun member => member.2.1.verdict, after) ∧
      self.root = handle.root ∧
      (self.pageSize = pageSize ∧ self.nextPageId ≤ after.shared.next ∨
        self = handle ∧ after = own) := by
  have declined : (members.map fun member => (member.1, Leading.parked member.2)).map
      (fun member => (member.1, CohortMember.declined, member.2.ops)) =
        members.map fun member => (member.1, .declined, member.2.pendingOps) := by
    rw [map_map]
    rfl
  unfold commitLeading at done
  unfold commitAll
  rw [declined] at done
  rw [commit, if_pos pending]
  cases prepare : leader.prepareCommit (Pages.ofArea leader.pageSize device.shared.area)
      formatVersion device.shared.root device.shared.next device.shared.seq with
  | error failure =>
    obtain ⟨error, left⟩ := failure
    rw [prepare] at done
    cases done
    refine ⟨handedBack_declined members, _, device, rfl, ?_, rfl, .inr ⟨rfl, rfl⟩⟩
    rw [answeredMembers_declined]
    simp [commitAll, CohortMember.verdict]
  | ok result =>
    rw [prepare] at done
    cases result with
    | none =>
      cases done
      refine ⟨handedBack_declined members, _, device, rfl, ?_, rfl, .inr ⟨rfl, rfl⟩⟩
      rw [answeredMembers_declined]
      simp [commitAll, CohortMember.verdict]
    | some written =>
      obtain ⟨prepared, record⟩ := written
      obtain ⟨rebased, isRebased, isEncoded, isRecord, -⟩ :=
        CowBTree.prepareCommit_eq_some.mp prepare
      obtain ⟨rebasedSize, rebasedCounter, grows⟩ :=
        CowBTree.rebasePending_frame counter isRebased
      obtain ⟨readySize, readyCounter, readyNext⟩ := CowBTree.materializeDirty_frame isEncoded
      have onward : device.shared.next ≤ record.next := by
        rw [isRecord]
        exact grows.trans readyNext.ge
      simp only at done
      generalize isLed : Leading.leadCohort formatVersion _ _ false _ = result at done
      obtain ⟨led, final⟩ := result
      cases done
      obtain ⟨within, further, back, sequential⟩ := Leading.leadCohort_sequential rfl
        ⟨(readySize.trans rebasedSize).trans size,
          (readyCounter.trans rebasedCounter).le.trans onward, by rw [isRecord]; rfl⟩
        (encodeRecord_filled formatVersion record)
        (fun member isMember => by
          obtain ⟨size, pending, counter⟩ := ready member isMember
          exact ⟨size, pending, counter.trans onward⟩) isLed
      refine ⟨back, _, _, rfl, ?_, ?_, .inl ⟨within.size, ?_⟩⟩
      · simp only [Leading.device] at sequential
        simp only [sequential]
      · simp only [CowBTree.settled, isRecord, CowBTree.pendingRecord]
      · exact max_le within.pending further

theorem commit_shared (formatVersion : Nat) (device : RegionLog) (self : CowBTree) :
    device.shared.commit formatVersion self =
      ((device.commit formatVersion self).1, (device.commit formatVersion self).2.1,
        (device.commit formatVersion self).2.2.shared) := by
  unfold commit Shared.commit
  split
  · generalize self.prepareCommit (Pages.ofArea self.pageSize device.shared.area) formatVersion
      device.shared.root device.shared.next device.shared.seq = prepared
    rcases prepared with ⟨error, left⟩ | _ | ⟨ready, record⟩
    · rfl
    · rfl
    · rfl
  · rfl

theorem commit_next (formatVersion : Nat) {self : CowBTree} (counter : self.nextPageId ≤ device.shared.next) :
    device.shared.next ≤ (device.commit formatVersion self).2.2.shared.next := by
  unfold commit
  split
  · split
    · exact le_rfl
    · exact le_rfl
    · rename_i ready record prepare
      obtain ⟨rebased, isRebased, isEncoded, isRecord, -⟩ :=
        CowBTree.prepareCommit_eq_some.mp prepare
      obtain ⟨-, -, grows⟩ := CowBTree.rebasePending_frame counter isRebased
      obtain ⟨-, -, readyNext⟩ := CowBTree.materializeDirty_frame isEncoded
      have onward := grows.trans readyNext.ge
      simpa [append, WalRecord.point, isRecord, CowBTree.pendingRecord] using onward
  · exact le_rfl

theorem commit_numbered (formatVersion : Nat) {self : CowBTree} (size : self.pageSize = pageSize)
    (counter : self.nextPageId ≤ device.shared.next) :
    (device.commit formatVersion self).2.1.pageSize = pageSize ∧
      (device.commit formatVersion self).2.1.nextPageId ≤
        (device.commit formatVersion self).2.2.shared.next := by
  unfold commit
  split
  · split
    · rename_i error left prepare
      obtain ⟨leftSize, leftCounter⟩ := CowBTree.prepareCommit_left counter prepare
      exact ⟨leftSize.trans size, leftCounter⟩
    · exact ⟨size, max_le le_rfl counter⟩
    · rename_i ready record prepare
      obtain ⟨rebased, isRebased, isEncoded, isRecord, -⟩ :=
        CowBTree.prepareCommit_eq_some.mp prepare
      obtain ⟨rebasedSize, -, -⟩ := CowBTree.rebasePending_frame counter isRebased
      obtain ⟨readySize, -, -⟩ := CowBTree.materializeDirty_frame isEncoded
      refine ⟨(readySize.trans rebasedSize).trans size, ?_⟩
      simp [CowBTree.settled, append, WalRecord.point, isRecord, CowBTree.pendingRecord]
  · exact ⟨size, counter⟩

theorem commitAll_next (formatVersion : Nat)
    (counters : ∀ self ∈ handles, self.nextPageId ≤ device.shared.next) :
    device.shared.next ≤ (device.commitAll formatVersion handles).2.shared.next ∧
      ∀ result ∈ (device.commitAll formatVersion handles).1,
        result.2.next ≤ (device.commitAll formatVersion handles).2.shared.next := by
  induction handles generalizing device with
  | nil => exact ⟨le_rfl, by simp [commitAll]⟩
  | cons self handles ih =>
    have first := commit_next formatVersion (counters self (by simp))
    obtain ⟨onward, later⟩ := ih fun other isOther =>
      (counters other (mem_cons_of_mem _ isOther)).trans first
    refine ⟨first.trans onward, fun result isResult => ?_⟩
    rcases mem_cons.mp isResult with rfl | isLater
    · exact onward
    · exact later result isLater

end RegionLog

/-! ## Every run -/

/-- Calls on handles, and commits that lead a cohort. -/
inductive AbsorberCall where
  | own (index : Nat) (call : Call)
  | cohort (leader : Nat) (members : List Nat)

namespace World

/-- The transactions of some handles as they park. -/
def parked (world : World) (members : List Nat) : List (Nat × CowBTree) :=
  members.map fun index => (index, world.handle index)

theorem ready_parked {pageSize next : Nat} {world : World} {members : List Nat}
    (handles : ∀ index, (world.handle index).pageSize = pageSize ∧
      (world.handle index).nextPageId ≤ next)
    (pending : ∀ index ∈ members, (world.handle index).hasPending = true) :
    ∀ member ∈ world.parked members, member.2.pageSize = pageSize ∧
      member.2.hasPending = true ∧ member.2.nextPageId ≤ next := by
  intro member isMember
  obtain ⟨index, isIndex, rfl⟩ := mem_map.mp isMember
  exact ⟨(handles index).1, pending index isIndex, (handles index).2⟩

/-- A handle after the cohort it was parked for: it adopts the state it was answered
with, and keeps its transaction when that is handed back. -/
def adopt (self : CowBTree) : Option (Nat × CohortMember × PendingOps) -> CowBTree
  | some (_, .committed point, _) | some (_, .conflict point, _) =>
    self.resetTo point.root point.next
  | _ => self

/-- A commit with a cohort, in whatever state its log region is. -/
def CohortStep (formatVersion : Nat) (world : World) (leader : Nat) (members : List Nat)
    (after : World) : Prop :=
  (world.handle leader).hasPending = true ∧
    (∀ index ∈ members, (world.handle index).hasPending = true) ∧
    ∃ device : RegionLog, device.shared = world.shared ∧ ∃ outcome self region cohort,
      device.commitLeading formatVersion (world.handle leader)
        ((world.parked members).map fun member => (member.1, Leading.parked member.2)) =
          (outcome, self, region, cohort) ∧
      region.shared.next ≤ 2 ^ 64 ∧
      after = { shared := region.shared, handle := fun index =>
        if index = leader then self
        else adopt (world.handle index) (cohort.find? (·.1 == index)) }

end World

/-- Any calls on any handles, alone or in cohorts, with values of any length. -/
def absorbers (pageSize formatVersion : Nat) : System World AbsorberCall where
  Initial world := world = World.empty pageSize
  Step world call after :=
    match call with
    | .own index (.put key value) => ∃ tree, after = world.set index tree ∧
        (world.handle index).Attempted ((world.handle index).put
          (Pages.ofArea pageSize world.shared.area) key value) tree
    | .own index call => world.Step pageSize formatVersion (index, call) after
    | .cohort leader members => world.CohortStep formatVersion leader members after

namespace CowBTree

variable {pages : Pages} {self after : CowBTree} {key : Bytes} {op : Option Bytes}

theorem Attempted.frame (attempted : self.Attempted (self.redo pages (key, op)) after) :
    after.pageSize = self.pageSize ∧ after.nextPageId = self.nextPageId := by
  cases result : self.redo pages (key, op) with
  | ok written =>
    rw [result] at attempted
    obtain rfl : after = written := attempted
    exact ⟨(redo_wrote result).pageSize, (redo_wrote result).nextPageId⟩
  | error error =>
    rw [result] at attempted
    exact ⟨attempted.1, attempted.2.2.1⟩

end CowBTree

namespace World

variable {pageSize formatVersion : Nat} {world after : World}

/-- Every handle has pages of the device's size and counts no further than the device. -/
structure Numbered (pageSize : Nat) (world : World) : Prop where
  positive : 0 < world.shared.next
  handles : ∀ index, (world.handle index).pageSize = pageSize ∧
    (world.handle index).nextPageId ≤ world.shared.next

theorem Numbered.set (numbered : world.Numbered pageSize) {index : Nat} {tree : CowBTree}
    (size : tree.pageSize = pageSize) (counter : tree.nextPageId ≤ world.shared.next) :
    (world.set index tree).Numbered pageSize := by
  refine ⟨numbered.positive, fun other => ?_⟩
  by_cases same : other = index
  · subst same
    simpa [World.set] using ⟨size, counter⟩
  · simpa [World.set, same] using numbered.handles other

theorem Numbered.attempted (numbered : world.Numbered pageSize) (op : Option Bytes) {index : Nat}
    {tree : CowBTree} {pages : Pages} {key : Bytes} (attempted :
      (world.handle index).Attempted ((world.handle index).redo pages (key, op)) tree) :
    (world.set index tree).Numbered pageSize := by
  obtain ⟨size, counter⟩ := numbered.handles index
  obtain ⟨sameSize, sameCounter⟩ := attempted.frame
  exact numbered.set (sameSize.trans size) (sameCounter.le.trans counter)

theorem Numbered.commit (numbered : world.Numbered pageSize) {index : Nat}
    {outcome : CommitOutcome} {tree : CowBTree} {shared : Shared}
    (done : world.shared.commit formatVersion (world.handle index) = (outcome, tree, shared)) :
    World.Numbered pageSize { world.set index tree with shared } := by
  obtain ⟨size, counter⟩ := numbered.handles index
  let device : RegionLog := ⟨world.shared, 0, 0, [], ⟨0, 0, 0⟩⟩
  have below : (world.handle index).nextPageId ≤ device.shared.next := counter
  have same := RegionLog.commit_shared formatVersion device (world.handle index)
  have further := RegionLog.commit_next formatVersion below
  obtain ⟨newSize, newCounter⟩ := RegionLog.commit_numbered formatVersion size below
  cases same.symm.trans done
  refine ⟨numbered.positive.trans_le further, fun other => ?_⟩
  by_cases isIndex : other = index
  · subst isIndex
    simpa [World.set] using ⟨newSize, newCounter⟩
  · obtain ⟨otherSize, otherCounter⟩ := numbered.handles other
    simpa [World.set, isIndex] using ⟨otherSize, otherCounter.trans further⟩

theorem Numbered.own (numbered : world.Numbered pageSize) {index : Nat} {call : Call}
    (step : (absorbers pageSize formatVersion).Step world (.own index call) after) :
    after.Numbered pageSize := by
  obtain ⟨size, counter⟩ := numbered.handles index
  cases call with
  | openHandle =>
    obtain rfl : after = _ := step
    exact numbered.set rfl (max_le le_rfl numbered.positive)
  | beginTxn =>
    obtain rfl : after = _ := step
    refine numbered.set ?_ ?_ <;> unfold CowBTree.beginTxn <;> split <;> assumption
  | put key value =>
    obtain ⟨tree, rfl, attempted⟩ := step
    exact numbered.attempted (some value) attempted
  | delete key =>
    obtain ⟨tree, rfl, attempted⟩ := step
    exact numbered.attempted none attempted
  | rollback =>
    obtain rfl : after = _ := step
    exact numbered.set size counter
  | refresh =>
    rcases step with rfl | rfl
    · exact numbered
    · unfold CowBTree.refresh
      split
      · exact numbered.set size counter
      · exact numbered.set size (max_le le_rfl counter)
  | commit =>
    obtain ⟨outcome, tree, shared, done, rfl, -⟩ := step
    exact numbered.commit done

theorem Numbered.cohort (numbered : world.Numbered pageSize) {leader : Nat} {members : List Nat}
    (step : world.CohortStep formatVersion leader members after) : after.Numbered pageSize := by
  obtain ⟨pending, parkedPending, device, isShared, outcome, self, region, cohort, done, -, rfl⟩ :=
    step
  have handles : ∀ index, (world.handle index).pageSize = pageSize ∧
      (world.handle index).nextPageId ≤ device.shared.next := isShared ▸ numbered.handles
  have ready := world.ready_parked handles parkedPending
  obtain ⟨-, handle, middle, ownCommit, sequential, -, leaderState⟩ :=
    RegionLog.commitLeading_sequential (handles leader).1 pending (handles leader).2 ready done
  have counters : ∀ tree ∈ world.handle leader :: answeredMembers (world.parked members) cohort,
      tree.nextPageId ≤ device.shared.next := by
    intro tree isTree
    rcases mem_cons.mp isTree with rfl | isMember
    · exact (handles leader).2
    · obtain ⟨⟨member, decision⟩, isPair, isVerdict⟩ := mem_filterMap.mp isMember
      obtain ⟨verdict, -, rfl⟩ := Option.map_eq_some_iff.mp isVerdict
      exact (ready member (of_mem_zip isPair).1).2.2
  obtain ⟨onward, results⟩ := RegionLog.commitAll_next formatVersion counters
  rw [sequential] at onward results
  have positive : 0 < region.shared.next := (isShared ▸ numbered.positive).trans_le onward
  refine ⟨positive, fun index => ?_⟩
  obtain ⟨size, counter⟩ := handles index
  simp only
  split
  · rcases leaderState with ownNumbered | ⟨rfl, rfl⟩
    · exact ownNumbered
    · have own := RegionLog.commit_numbered formatVersion (handles leader).1
        (handles leader).2
      rw [ownCommit] at own
      exact ⟨own.1, own.2.trans (results _ (mem_cons_self ..))⟩
  · have moved : ∀ token decision ops, cohort.find? (·.1 == index) = some (token, decision, ops) ->
        ∀ verdict ∈ decision.verdict, verdict.2.next ≤ region.shared.next := by
      intro token decision ops isFound verdict isVerdict
      exact results verdict (mem_cons_of_mem _
        (mem_filterMap.mpr ⟨_, mem_of_find?_eq_some isFound, isVerdict⟩))
    unfold adopt
    split
    · rename_i token point ops isFound
      exact ⟨size, max_le (moved _ _ _ isFound _ rfl) (counter.trans onward)⟩
    · rename_i token point ops isFound
      exact ⟨size, max_le (moved _ _ _ isFound _ rfl) (counter.trans onward)⟩
    · exact ⟨size, counter.trans onward⟩

theorem numbered_of_absorbers {calls : List AbsorberCall}
    (run : (absorbers pageSize formatVersion).Runs calls world) : world.Numbered pageSize := by
  refine System.Runs.invariant (fun _ world => World.Numbered pageSize world) ?_ ?_ run
  · rintro world rfl
    exact ⟨Nat.one_pos, fun _ => ⟨rfl, le_rfl⟩⟩
  · intro calls state call next numbered step
    cases call with
    | own index call => exact numbered.own step
    | cohort leader members => exact numbered.cohort step

end World

/-- **Cohorts.** In every run, a commit that leads a cohort leaves the outcomes, the
records and the committed state that the leader's own commit and then those of the
members it answered for leave one after another. What it hands back is what was parked,
and the leader ends at the root of its own commit. -/
theorem cohort_is_sequential {pageSize formatVersion : Nat} {calls : List AbsorberCall}
    {world : World}
    (run : (absorbers pageSize formatVersion).Runs calls world) {leader : Nat}
    {members : List Nat} (pending : (world.handle leader).hasPending = true)
    (parkedPending : ∀ index ∈ members, (world.handle index).hasPending = true)
    {device : RegionLog} (isShared : device.shared = world.shared)
    {outcome : CommitOutcome} {self : CowBTree} {after : RegionLog}
    {cohort : List (Nat × CohortMember × PendingOps)}
    (done : device.commitLeading formatVersion (world.handle leader)
      ((world.parked members).map fun member => (member.1, Leading.parked member.2)) =
        (outcome, self, after, cohort)) :
    HandedBack (world.parked members) cohort ∧ ∃ handle own,
      device.commit formatVersion (world.handle leader) = (outcome, handle, own) ∧
      device.commitAll formatVersion
          (world.handle leader :: answeredMembers (world.parked members) cohort) =
        ((outcome, own.point) :: cohort.filterMap fun member => member.2.1.verdict, after) ∧
      self.root = handle.root := by
  have handles := (World.numbered_of_absorbers run).handles
  rw [<- isShared] at handles
  obtain ⟨back, handle, middle, ownCommit, sequential, sameRoot, -⟩ :=
    RegionLog.commitLeading_sequential (handles leader).1 pending (handles leader).2
      (world.ready_parked handles parkedPending) done
  exact ⟨back, handle, middle, ownCommit, sequential, sameRoot⟩

theorem runs_absorbers {pageSize formatVersion : Nat} {events : List (Nat × Call)} {world : World}
    (run : (writers pageSize formatVersion).Runs events world) :
    (absorbers pageSize formatVersion).Runs
      (events.map fun event => .own event.1 event.2) world := by
  obtain ⟨start, initial, steps⟩ := run
  refine ⟨start, initial, ?_⟩
  induction steps with
  | refl => exact .refl
  | step _ transition ih =>
    rename_i event _ _
    obtain ⟨index, call⟩ := event
    rw [map_append]
    cases call with
    | put key value => exact .step ih transition.2
    | _ => exact .step ih transition

/-- Of two members parked behind a commit of the key `1`, the one on another key is
committed with it and the one on the same key conflicts. -/
theorem two_members_sequential : ∃ world self after cohort own,
    (absorbers 128 6).Runs [.own 0 (.put [1] [2]), .own 1 (.put [3] [4]), .own 2 (.put [1] [9])]
      world ∧
    RegionLog.commitLeading 6 ⟨world.shared, 256, 33024, [], ⟨0, 1, 0⟩⟩ (world.handle 0)
      ((world.parked [1, 2]).map fun member => (member.1, Leading.parked member.2)) =
        (.committed, self, after, cohort) ∧
    cohort.map (fun member => (member.1, member.2.1)) =
      [(1, .committed ⟨2, 3, 2⟩), (2, .conflict ⟨2, 3, 2⟩)] ∧
    RegionLog.commitAll 6 ⟨world.shared, 256, 33024, [], ⟨0, 1, 0⟩⟩
        (world.handle 0 :: answeredMembers (world.parked [1, 2]) cohort) =
      ((.committed, own) :: cohort.filterMap fun member => member.2.1.verdict, after) := by
  let events : List (Nat × Call) := [(0, .put [1] [2]), (1, .put [3] [4]), (2, .put [1] [9])]
  let world := events.foldl (World.call 128 6) (.empty 128)
  have run : (writers 128 6).Runs events world := runs_calls (by decide +kernel)
  have pending : (world.handle 0).hasPending = true := by decide +kernel
  have parkedPending : ∀ index ∈ [1, 2], (world.handle index).hasPending = true := by
    decide +kernel
  have isCommitted : (RegionLog.commitLeading 6 ⟨world.shared, 256, 33024, [], ⟨0, 1, 0⟩⟩
      (world.handle 0) ((world.parked [1, 2]).map fun member =>
        (member.1, Leading.parked member.2))).1 = .committed := by decide +kernel
  have decisions : (RegionLog.commitLeading 6 ⟨world.shared, 256, 33024, [], ⟨0, 1, 0⟩⟩
      (world.handle 0) ((world.parked [1, 2]).map fun member =>
        (member.1, Leading.parked member.2))).2.2.2.map (fun member => (member.1, member.2.1)) =
          [(1, .committed ⟨2, 3, 2⟩), (2, .conflict ⟨2, 3, 2⟩)] := by decide +kernel
  generalize done : RegionLog.commitLeading 6 ⟨world.shared, 256, 33024, [], ⟨0, 1, 0⟩⟩
    (world.handle 0) ((world.parked [1, 2]).map fun member =>
      (member.1, Leading.parked member.2)) = result at isCommitted decisions
  obtain ⟨outcome, self, after, cohort⟩ := result
  obtain rfl : outcome = .committed := isCommitted
  obtain ⟨-, handle, own, -, sequential, -⟩ :=
    cohort_is_sequential (runs_absorbers run) pending parkedPending rfl done
  exact ⟨world, self, after, cohort, own.point, runs_absorbers run, done, decisions, sequential⟩

/-! ## With page reuse

A handle that reclaims space takes a freed page once the commit that freed it is older than
the published commit point and than what any handle may still read. A leader publishes one
commit point for its whole cohort, after the last member. -/

namespace Writer

/-- `reset_to`, which is also what a rebase starts from. -/
def resetTo (root next : Nat) (self : Writer) : Writer :=
  { self with
    toCowBTree := self.toCowBTree.resetTo root next
    freeCandidates := [], freeScanCursor := none, freeListExhausted := false
    freedThisTxn := [], consumedThisTxn := [], consumedEverThisTxn := [] }

/-- Do one pending operation again. -/
def redo (backing : Backing) : Bytes × Option Bytes -> Writing Unit
  | (key, some value) => put backing key value
  | (key, none) => delete backing key

/-- `rebase_pending`: whether the transaction is now on top of the committed root. -/
def rebasePending (backing : Backing) (root next : Nat) : Writing Bool := do
  let self <- Stateful.gets id
  let look := CowBTree.getAt self.pageSize backing.committed (max next self.nextPageId)
  if <- ask fun _ => CowBTree.conflicts (look self.root) (look root) self.pendingOps.keys then
    return false
  else
    Stateful.change fun self => { self with pendingOps := ∅ }
    let ops <- ask fun _ => mergeMonotonicMetadata (look root) self.pendingOps
    Stateful.change (resetTo root next)
    ops.toList.forM (redo backing)
    return true

/-- The part of `commit` that builds the record, or finds a conflict. -/
def prepareCommit (backing : Backing) (formatVersion : Nat) (current : Point) :
    Writing (Option WalRecord) := do
  if <- rebasePending backing current.root current.next then
    finalizeFreeList backing (current.seq + 1)
    materializeDirty
    let self <- Stateful.gets id
    let record := self.pendingRecord current.root current.seq
    if (encodeRecord formatVersion record).length > maxRecordLen self.pageSize then
      refused (.storage "transaction does not fit the write-ahead log")
    else return some record
  else return none

end Writer

/-- What the handles of a device that reclaims space share: the data area, the published
commit point, and for each handle what it may still read. -/
structure Pool where
  area : Nat -> Bytes
  point : Point
  watermarks : List Nat

namespace Pool

/-- What the device answers while the handle `index` replays on the state `seq`:
`rebase_pending` reports that state first. -/
def backing (pageSize : Nat) (pool : Pool) (index seq : Nat) : Backing where
  committed := Pages.ofArea pageSize pool.area
  commitPoint := some pool.point.seq
  minReaderSeq := (pool.watermarks.set index seq).min?

/-- The operation `put` of a handle at the published commit point. -/
def put (pool : Pool) (index : Nat) (key value : Bytes) (self : Writer) : Writer :=
  (self.put (pool.backing self.pageSize index pool.point.seq) key value).2

/-- Commit the transaction on the handle `index` on top of `current`: its record, the handle
and the data area once its pages are written. -/
def append (formatVersion : Nat) (pool : Pool) (index : Nat) (self : Writer) (current : Point) :
    Option (WalRecord × Writer × (Nat -> Bytes)) :=
  match self.prepareCommit (pool.backing self.pageSize index current.seq) formatVersion current with
  | (.ok (some record), ready) =>
    some (record, { ready with dirty := ∅ }, ready.writeDirtyPages pool.area)
  | _ => none

/-- `commit` of the handle `index` without a cohort. -/
def commit (formatVersion : Nat) (pool : Pool) (index : Nat) (self : Writer) :
    Option (WalRecord × Writer × Pool) := do
  let (record, ready, area) <- pool.append formatVersion index self pool.point
  return (record, { ready with toCowBTree := ready.settled },
    ⟨area, record.point, pool.watermarks.set index record.seq⟩)

/-- The records of two commits, one after the other. -/
def inTurn (formatVersion : Nat) (pool : Pool) (leader member : Writer) :
    Option (List WalRecord) := do
  let (record, _, pool) <- pool.commit formatVersion 0 leader
  let (own, _, _) <- pool.commit formatVersion 1 member
  return [record, own]

/-- The records of a commit that leads one parked member: `absorb_member` puts its transaction
on the leader's handle, and the commit point is published after both. -/
def cohort (formatVersion : Nat) (pool : Pool) (leader member : Writer) :
    Option (List WalRecord) := do
  let (record, ready, area) <- pool.append formatVersion 0 leader pool.point
  let taken := { ready with
    root := member.root, pendingRoot := member.root, pendingNext := ready.nextPageId
    pendingOps := member.pendingOps, hasPending := true }
  let (own, _, _) <- { pool with area }.append formatVersion 0 taken record.point
  return [record, own]

/-- A new file, with two handles that reuse pages. -/
def new : Pool := ⟨fun _ => [], ⟨0, 1, 0⟩, [0, 0]⟩

end Pool

/-- One handle has written a row twice, so that the page of the first write is free from the
second commit on. Both handles have then begun a transaction on another row. -/
def rewritten : Option (Pool × Writer × Writer) := do
  let (_, first, pool) <- Pool.new.commit 6 0 (Pool.new.put 0 [1] [2] (.blank 128))
  let (_, second, pool) <- pool.commit 6 0 (pool.put 0 [1] [3] first)
  let pool := { pool with watermarks := pool.watermarks.set 1 pool.point.seq }
  let member := (Writer.blank 128).resetTo pool.point.root pool.point.next
  return (pool, pool.put 0 [4] [5] second, pool.put 1 [6] [7] member)

/-- Behind the leader the member numbers its three pages from the counter, in its own turn one
of them is the free page `1`: the records and the committed root differ. -/
theorem cohort_not_in_turn :
    (rewritten.bind fun (pool, leader, member) => (pool.cohort 6 leader member).map
      (·.map fun record => (record.seq, record.root, record.next))) =
        some [(3, 3, 4), (4, 6, 7)] ∧
    (rewritten.bind fun (pool, leader, member) => (pool.inTurn 6 leader member).map
      (·.map fun record => (record.seq, record.root, record.next))) =
        some [(3, 3, 4), (4, 5, 6)] := by
  decide +kernel

end InlaySql.Btree
