import InlaySql.Btree.Cohort

/-!
# Commits that fail

A commit can fail at a read, while it merges or replays its operations, when the
record does not fit, at a write and at the sync. What the handle still holds of its
transaction depends on where.

As long as the operations were not taken out of the handle and lost, and no member of
a cohort was put in their place, a later commit applies the same transaction.
-/

namespace InlaySql.Btree

open Lib Wal

/-! ## Rebasing twice -/

/-- No counter that only grows is smaller than it was. -/
def Grown (past current : Bytes -> Option Bytes) : Prop :=
  ∀ key, key = nextRowIdMeta ∨ key = cdcFloorMeta ->
    counterOf (past key) ≤ counterOf (current key)

/-- The merged counters are `u64`s. -/
def CountersFit (ops : Bytes -> Option (Option Bytes)) (past : Bytes -> Option Bytes) : Prop :=
  ∀ key, key = nextRowIdMeta ∨ key = cdcFloorMeta -> ∀ bytes, ops key = some (some bytes) ->
    max (ofLe bytes) (counterOf (past key)) < 256 ^ 8

/-- The change record a rebase moves the pending one to is not the transaction's own. -/
def Clear (ops : Bytes -> Option (Option Bytes)) (past : Bytes -> Option Bytes) : Prop :=
  ∀ bytes, ops writeVersionMeta = some (some bytes) ->
    ofLe bytes = nextVersion past ∨ ops (cdcKey (nextVersion past)) = none

section Rebased

variable {ops : Bytes -> Option (Option Bytes)} {past current : Bytes -> Option Bytes}

theorem Grown.refl (current : Bytes -> Option Bytes) : Grown current current := fun _ _ => le_rfl

theorem Grown.trans {later : Bytes -> Option Bytes} (first : Grown past current)
    (second : Grown current later) : Grown past later :=
  fun key counter => (first key counter).trans (second key counter)

theorem nextVersion_lt (current : Bytes -> Option Bytes) : nextVersion current < 256 ^ 8 := by
  simp only [nextVersion, show (256 : Nat) ^ 8 = 2 ^ 64 by norm_num]
  exact Nat.mod_lt _ (by positivity)

theorem maxedOps_maxed (fit : CountersFit ops past) (grown : Grown past current)
    {between : Bytes -> Option (Option Bytes)} {key : Bytes}
    (same : between key = maxedOps ops past key) :
    maxedOps between current key = maxedOps ops current key := by
  unfold maxedOps at same ⊢
  split
  · rename_i counter
    rw [same, if_pos counter]
    rcases found : ops key with _ | _ | bytes
    · rfl
    · rfl
    · have larger : max (max (ofLe bytes) (counterOf (past key))) (counterOf (current key)) =
          max (ofLe bytes) (counterOf (current key)) := by
        have := grown key counter
        omega
      simp only [maxedOp]
      rw [ofLe_leBytes (fit key counter bytes found), larger]
  · rename_i other
    rw [same, if_neg other]

theorem maxedOps_other {key : Bytes} (notNext : key ≠ nextRowIdMeta) (notFloor : key ≠ cdcFloorMeta) :
    maxedOps ops current key = ops key := by
  rw [maxedOps, if_neg (by simp [notNext, notFloor])]

theorem rebasedOps_of_version (current : Bytes -> Option Bytes) {bytes : Bytes}
    (isVersion : ops writeVersionMeta = some (some bytes)) (key : Bytes) :
    rebasedOps ops current key =
      if key = writeVersionMeta then some (some (leBytes 8 (nextVersion current)))
      else if (ops (cdcKey (ofLe bytes))).isSome ∧ key = cdcKey (nextVersion current) then
        ops (cdcKey (ofLe bytes))
      else if key = cdcKey (ofLe bytes) then none else maxedOps ops current key := by
  simp only [rebasedOps, isVersion]

/-- **Rebasing twice.** Operations rebased on a past state and then on a later one are
those rebased on the later one alone. -/
theorem rebasedOps_rebased (fit : CountersFit ops past) (clear : Clear ops past)
    (grown : Grown past current) :
    rebasedOps (rebasedOps ops past) current = rebasedOps ops current := by
  obtain ⟨versionNext, versionFloor, -⟩ := meta_distinct
  funext key
  by_cases versioned : ∃ bytes, ops writeVersionMeta = some (some bytes)
  · obtain ⟨bytes, isVersion⟩ := versioned
    obtain ⟨newVersion, newNext, newFloor⟩ := cdcKey_distinct (nextVersion past)
    obtain ⟨oldVersion, oldNext, oldFloor⟩ := cdcKey_distinct (ofLe bytes)
    have first := rebasedOps_of_version past isVersion
    have again : rebasedOps ops past writeVersionMeta =
        some (some (leBytes 8 (nextVersion past))) := by rw [first, if_pos rfl]
    -- The record that moves is the same one.
    have record : rebasedOps ops past (cdcKey (nextVersion past)) = ops (cdcKey (ofLe bytes)) := by
      rw [first, if_neg newVersion]
      by_cases some : (ops (cdcKey (ofLe bytes))).isSome
      · rw [if_pos ⟨some, rfl⟩]
      · have none : ops (cdcKey (ofLe bytes)) = none := by simpa using some
        rw [if_neg (by simp [none]), none]
        split
        · rfl
        · rename_i differs
          rw [maxedOps_other newNext newFloor]
          rcases clear bytes isVersion with same | absent
          · rw [same] at differs
            exact absurd rfl differs
          · exact absent
    rw [rebasedOps_of_version current again, rebasedOps_of_version current isVersion,
      ofLe_leBytes (nextVersion_lt past), record]
    by_cases isKey : key = writeVersionMeta
    · rw [if_pos isKey, if_pos isKey]
    rw [if_neg isKey, if_neg isKey]
    by_cases moved : (ops (cdcKey (ofLe bytes))).isSome ∧ key = cdcKey (nextVersion current)
    · rw [if_pos moved, if_pos moved]
    rw [if_neg moved, if_neg moved]
    by_cases isNew : key = cdcKey (nextVersion past)
    · rw [if_pos isNew]
      split
      · rfl
      · rename_i differs
        rw [isNew, maxedOps_other newNext newFloor]
        rcases clear bytes isVersion with same | absent
        · rw [same] at differs
          exact absurd isNew differs
        · exact absent.symm
    · rw [if_neg isNew]
      by_cases isOld : key = cdcKey (ofLe bytes)
      · rw [if_pos isOld, isOld, maxedOps_other oldNext oldFloor, first, if_neg oldVersion,
          if_neg (by rw [<- isOld]; simp [isNew]), if_pos rfl]
      · rw [if_neg isOld]
        apply maxedOps_maxed fit grown
        rw [first, if_neg isKey, if_neg (by simp [isNew]), if_neg isOld]
  · have unversioned : ∀ (others : Bytes -> Option (Option Bytes)) state,
        (¬ ∃ bytes, others writeVersionMeta = some (some bytes)) ->
          rebasedOps others state = maxedOps others state := by
      intro others state absent
      funext other
      unfold rebasedOps
      split
      · rename_i bytes found
        exact absurd ⟨bytes, found⟩ absent
      · rfl
    have still : ¬ ∃ bytes, rebasedOps ops past writeVersionMeta = some (some bytes) := by
      rw [unversioned ops past versioned, maxedOps_other versionNext versionFloor]
      exact versioned
    rw [unversioned _ current still, unversioned ops current versioned]
    apply maxedOps_maxed fit grown
    rw [unversioned ops past versioned]

end Rebased

/-! ## What a rebase leaves in the handle -/

section Merged

variable {look : Bytes -> Except Error (Option Bytes)} {current : Bytes -> Option Bytes}
  {ops after : PendingOps}

theorem counterOf_lt {value : Option Bytes} {counter : Nat}
    (read : (match value with | some bytes => decodeCounter bytes | none => .ok 0) = .ok counter) :
    counterOf value < 256 ^ 8 := by
  cases value with
  | none =>
    simp only [counterOf, Option.map_none, Option.getD_none]
    positivity
  | some bytes =>
    obtain ⟨-, length⟩ := decodeCounter_eq read
    have bound := ofLe_lt bytes
    rw [length] at bound
    exact bound

section

variable (reads : ∀ key, look key = .ok (current key))

include reads

theorem mergeMaxCounter_fit {key bytes : Bytes} (merged : mergeMaxCounter look ops key = .ok after)
    (isPut : ops[key]? = some (some bytes)) :
    max (ofLe bytes) (counterOf (current key)) < 256 ^ 8 := by
  obtain ⟨found, isFound, rest⟩ := bind_eq_ok merged
  rw [pendingCounter, isPut] at isFound
  obtain ⟨pending, decoded, result⟩ := bind_eq_ok isFound
  cases result
  obtain ⟨counter, isCounter, -⟩ := bind_eq_ok rest
  obtain ⟨-, length⟩ := decodeCounter_eq decoded
  have bound := ofLe_lt bytes
  rw [length] at bound
  rw [currentCounter, reads key] at isCounter
  exact max_lt bound (counterOf_lt isCounter)

theorem mergeMonotonicMetadata_fit (merged : mergeMonotonicMetadata look ops = .ok after) :
    CountersFit (ops[·]?) current := by
  obtain ⟨rowed, isRowed, rest⟩ := bind_eq_ok merged
  obtain ⟨floored, isFloored, -⟩ := bind_eq_ok rest
  rintro key (rfl | rfl) bytes isPut
  · exact mergeMaxCounter_fit reads isRowed isPut
  · refine mergeMaxCounter_fit reads isFloored ?_
    rw [mergeMaxCounter_eq reads isRowed, if_neg meta_distinct.2.2.symm]
    exact isPut

end

end Merged

namespace CowBTree

variable {pages : Pages} {tree after self rebased : CowBTree} {ops : List (Bytes × Option Bytes)}

theorem replay_pendingOps (distinct : ops.Pairwise fun first second => first.1 ≠ second.1)
    (done : replay pages tree ops = .ok after) (key : Bytes) :
    (∀ op, (key, op) ∈ ops -> after.pendingOps[key]? = some op) ∧
      ((∀ op, (key, op) ∉ ops) -> after.pendingOps[key]? = tree.pendingOps[key]?) := by
  induction ops generalizing tree with
  | nil =>
    cases done
    simp
  | cons first ops ih =>
    obtain ⟨apart, distinctRest⟩ := List.pairwise_cons.mp distinct
    obtain ⟨middle, isMiddle, rest⟩ := bind_eq_ok done
    have wrote := redo_wrote (leaving_ok isMiddle)
    obtain ⟨held, absent⟩ := ih distinctRest rest
    constructor
    · intro op member
      rcases List.mem_cons.mp member with rfl | later
      · rw [absent fun other later => apart _ later rfl, wrote.pendingOps, getElem?_insert,
          if_pos rfl]
      · exact held op later
    · intro none
      have notFirst : key ≠ first.1 := by
        rintro rfl
        exact none first.2 (by simp)
      rw [absent fun op later => none op (List.mem_cons_of_mem _ later), wrote.pendingOps,
        getElem?_insert, if_neg notFirst]

variable {current : Bytes -> Option Bytes}

theorem rebasePending_pendingOps {root next : Nat}
    (reads : ∀ key, getAt self.pageSize pages (max next self.nextPageId) root key =
      .ok (current key)) (done : self.rebasePending pages root next = .ok (some rebased)) :
    CountersFit (self.pendingOps[·]?) current ∧
      ∀ key : Bytes, rebased.pendingOps[key]? = rebasedOps (self.pendingOps[·]?) current key := by
  obtain ⟨found, -, ⟨-, absurd⟩ | ⟨-, ops, merged, same, replayed, isRebased⟩⟩ :=
    rebasePending_eq_ok.mp done
  · cases absurd
  · cases isRebased
    have distinct : ops.toList.Pairwise fun first second => first.1 ≠ second.1 :=
      Std.TreeMap.distinct_keys_toList.imp fun distinct same =>
        distinct (Std.LawfulEqCmp.compare_eq_iff_eq.mpr same)
    refine ⟨mergeMonotonicMetadata_fit reads merged, fun key => ?_⟩
    rw [<- mergeMonotonicMetadata_eq reads merged key]
    obtain ⟨held, absent⟩ := replay_pendingOps distinct replayed key
    cases found : ops[key]? with
    | some op => exact held op (Std.TreeMap.mem_toList_iff_getElem?_eq_some.mpr found)
    | none =>
      rw [absent]
      · simp [resetTo]
      · intro op member
        rw [Std.TreeMap.mem_toList_iff_getElem?_eq_some, found] at member
        cases member

theorem Anchored.of_rebase {root next : Nat} (small : 128 ≤ self.pageSize)
    (anchored : Anchored self.pageSize pages next self)
    (nowRoots : Roots self.pageSize pages next root current)
    (done : self.rebasePending pages root next = .ok (some rebased)) :
    Anchored self.pageSize pages next rebased := by
  obtain ⟨ops, -, opFits, isReplayed⟩ := rebasePending_some small nowRoots anchored.opsFit done
  have startFits : ∀ op ∈ ops.toList, OpFits (self.resetTo root next).pageSize op := opFits
  have replayed := (replay_replayed startFits).1 isReplayed
  refine ⟨replayed.pageSize, ⟨current, ?_⟩, ?_, replayed.opsFit (.empty _)⟩
  · rw [replayed.root]
    exact nowRoots
  · rw [replayed.nextPageId]
    exact max_le le_rfl anchored.next_le

end CowBTree

/-! ## Where a commit stops -/

/-- Where a commit fails. -/
inductive Failure where
  | beforeMerge
  | inMerge
  | inReplay
  | afterReplay
  | afterCohort
  deriving DecidableEq, Repr

/-- Two handles with the same transaction, whatever pages it has so far. -/
structure SameTxn (left tree : CowBTree) : Prop where
  pageSize : left.pageSize = tree.pageSize
  root : left.root = tree.root
  nextPageId : left.nextPageId = tree.nextPageId
  hasPending : left.hasPending = tree.hasPending
  pendingOps : left.pendingOps = tree.pendingOps

/-- Pages past the counter may have been written; nothing was committed. -/
structure Spilled (shared after : Shared) : Prop where
  root : after.root = shared.root
  next : after.next = shared.next
  seq : after.seq = shared.seq
  area : ∀ id < shared.next, after.area id = shared.area id

/-- The leader as it starts on its cohort, with its own record in the buffer. -/
def leadingAfter (formatVersion : Nat) (device : RegionLog) (ready : CowBTree)
    (record : WalRecord) : Leading where
  self := { ready with dirty := ∅ }
  area := ready.writeDirtyPages device.shared.area
  base := record.point
  records := encodeRecord formatVersion record

/-- What is left of the region for the cohort. -/
def regionLeft (formatVersion : Nat) (device : RegionLog) (record : WalRecord) : Nat :=
  let placed := device.place (encodeRecord formatVersion record).length
  placed.stop - placed.appendOffset

/-- Everything a failed `commit` may leave: the handle and the device. Any read, write
and sync may fail, so the failure itself is not computed. -/
inductive CommitFails (formatVersion : Nat) (device : RegionLog) (self : CowBTree)
    (members : List (Nat × AbsorbTxn)) : Failure -> CowBTree -> Shared -> Prop where
  /-- The committed state could not be read, or a key of the conflict test. -/
  | beforeMerge : CommitFails formatVersion device self members .beforeMerge self device.shared
  /-- A counter could not be read or decoded; the operations were taken already. -/
  | inMerge (counted : ∃ key ∈ [nextRowIdMeta, cdcFloorMeta, writeVersionMeta], ∃ bytes,
        self.pendingOps[key]? = some (some bytes)) :
      CommitFails formatVersion device self members .inMerge { self with pendingOps := ∅ }
        device.shared
  /-- An operation could not be replayed; those before it are the transaction now. -/
  | inReplay {ops : PendingOps} {replayed rest : List (Bytes × Option Bytes)}
      {op : Bytes × Option Bytes} {reached left : CowBTree}
      (merged : mergeMonotonicMetadata (CowBTree.getAt self.pageSize
        (Pages.ofArea self.pageSize device.shared.area)
        (max device.shared.next self.nextPageId) device.shared.root) self.pendingOps = .ok ops)
      (isOps : ops.toList = replayed ++ op :: rest)
      (isReached : CowBTree.replay (Pages.ofArea self.pageSize device.shared.area)
        (self.resetTo device.shared.root device.shared.next) replayed = .ok reached)
      (same : SameTxn left { reached with hasPending := true }) :
      CommitFails formatVersion device self members .inReplay left device.shared
  /-- The pages could not be encoded, the record is too long, the region could not be
  scanned or emptied, or a page could not be written. -/
  | afterReplay {rebased left : CowBTree} {shared : Shared}
      (isRebased : self.rebasePending (Pages.ofArea self.pageSize device.shared.area)
        device.shared.root device.shared.next = .ok (some rebased))
      (same : SameTxn left rebased) (spilled : Spilled device.shared shared) :
      CommitFails formatVersion device self members .afterReplay left shared
  /-- The records of the leader and its cohort could not be appended or synced. They may
  be in the log all the same. -/
  | afterCohort {ready left : CowBTree} {record : WalRecord}
      {cohort : List (Nat × CohortMember × PendingOps)} {led : Leading} {shared : Shared}
      (prepared : self.prepareCommit (Pages.ofArea self.pageSize device.shared.area) formatVersion
        device.shared.root device.shared.next device.shared.seq = .ok (some (ready, record)))
      (isLed : (leadingAfter formatVersion device ready record).leadCohort formatVersion
        (regionLeft formatVersion device record) false members = (cohort, led))
      (same : SameTxn left led.self)
      (written : Spilled device.shared shared ∨
        shared = ⟨led.area, led.base.root, led.base.next, led.base.seq⟩) :
      CommitFails formatVersion device self members .afterCohort left shared

/-- The leader does not try the first member of its cohort, and so none. -/
def RefusedAtSight (records : Bytes) (available : Nat) : List (Nat × AbsorbTxn) -> Prop
  | [] => True
  | (_, txn) :: _ => records.length * 2 ≥ available ∨
      txn.ops.keys.any (freeListPrefix.isPrefixOf ·) = true

/-- The change record the transaction's own moves to is not another of its operations. -/
def RecordFree (shared : Shared) (self : CowBTree) : Prop :=
  ∀ current : Bytes -> Option Bytes,
    (∀ key, shared.getAt self.pageSize shared.root key = .ok (current key)) ->
      Clear (self.pendingOps[·]?) current

/-- A failure that keeps the transaction: it comes before the operations are taken, or
once they are all back and no member of a cohort replaced them. -/
def Harmless (formatVersion : Nat) (device : RegionLog) (self : CowBTree)
    (members : List (Nat × AbsorbTxn)) : Failure -> Prop
  | .beforeMerge => True
  | .inMerge | .inReplay => False
  | .afterReplay => RecordFree device.shared self
  | .afterCohort => RecordFree device.shared self ∧ ∀ ready record,
      self.prepareCommit (Pages.ofArea self.pageSize device.shared.area) formatVersion
        device.shared.root device.shared.next device.shared.seq = .ok (some (ready, record)) ->
          RefusedAtSight (encodeRecord formatVersion record)
            (regionLeft formatVersion device record) members

/-! ## Runs with failures -/

/-- The handles of a device, with the operations each transaction was last given. -/
structure Retrying where
  world : World
  intent : Nat -> Bytes -> Option (Option Bytes)

inductive RetryCall where
  | own (index : Nat) (call : Call)
  | fail (index : Nat) (failure : Failure)

namespace Retrying

/-- The operations a call leaves a transaction with. Opening it again or refreshing is
none of its operations. -/
def intentAfter (intent : Nat -> Bytes -> Option (Option Bytes)) (after : World) (index : Nat) :
    Call -> Nat -> Bytes -> Option (Option Bytes)
  | .beginTxn | .refresh => intent
  | _ => Function.update intent index ((after.handle index).pendingOps[·]?)

/-- A call under the condition: no transaction deletes a counter that only grows. -/
def KeepsCounters : Call -> Prop
  | .delete key => key ≠ nextRowIdMeta ∧ key ≠ cdcFloorMeta
  | _ => True

/-- One call, or one commit that fails. Under `guarded` the failures are harmless. -/
def Step (pageSize formatVersion : Nat) (guarded : Prop) (state : Retrying) :
    RetryCall -> Retrying -> Prop
  | .own index call, after =>
    state.world.Step pageSize formatVersion (index, call) after.world ∧
      after.intent = intentAfter state.intent after.world index call ∧
      (call = .commit -> ∀ error, (state.world.shared.commit formatVersion
        (state.world.handle index)).1 ≠ .failed error) ∧
      (guarded -> KeepsCounters call)
  | .fail index failure, after =>
    ∃ device : RegionLog, device.shared = state.world.shared ∧ ∃ members left shared,
      (state.world.handle index).hasPending = true ∧
      CommitFails formatVersion device (state.world.handle index) members failure left shared ∧
      (guarded -> Harmless formatVersion device (state.world.handle index) members failure) ∧
      shared.next ≤ 2 ^ 64 ∧
      after = { state with world := { state.world.set index left with shared } }

end Retrying

/-- Any calls on any handles, with commits that fail anywhere. -/
def retrying (pageSize formatVersion : Nat) (guarded : Prop) : System Retrying RetryCall where
  Initial state := state = ⟨World.empty pageSize, fun _ _ => none⟩
  Step := Retrying.Step pageSize formatVersion guarded

/-! ## What harmless failures keep -/

/-- No counter that only grows is deleted. -/
def NoDrop (ops : Bytes -> Option (Option Bytes)) : Prop :=
  ∀ key, key = nextRowIdMeta ∨ key = cdcFloorMeta -> ops key ≠ some none

section Counters

variable {ops : Bytes -> Option (Option Bytes)} {current : Bytes -> Option Bytes}

theorem rebasedOps_counter {key : Bytes} (counter : key = nextRowIdMeta ∨ key = cdcFloorMeta) :
    rebasedOps ops current key = maxedOp current key (ops key) := by
  obtain ⟨versionNext, versionFloor, -⟩ := meta_distinct
  have notVersion : key ≠ writeVersionMeta := by
    rcases counter with rfl | rfl
    · exact versionNext.symm
    · exact versionFloor.symm
  have notRecord : ∀ version, key ≠ cdcKey version := by
    intro version
    obtain ⟨-, notNext, notFloor⟩ := cdcKey_distinct version
    rcases counter with rfl | rfl
    · exact notNext.symm
    · exact notFloor.symm
  have maxed : maxedOps ops current key = maxedOp current key (ops key) := by
    rw [maxedOps, if_pos counter]
  unfold rebasedOps
  split
  · rw [if_neg notVersion, if_neg (by simp [notRecord]), if_neg (notRecord _), maxed]
  · exact maxed

theorem NoDrop.rebased (kept : NoDrop ops) : NoDrop (rebasedOps ops current) := by
  intro key counter
  rw [rebasedOps_counter counter]
  have here := kept key counter
  rcases found : ops key with _ | _ | bytes
  · simp [maxedOp]
  · exact absurd found here
  · simp [maxedOp]

theorem Grown.overlaid (kept : NoDrop ops) (fit : CountersFit ops current) :
    Grown current (overlaid ops current) := by
  intro key counter
  rw [InlaySql.Btree.overlaid, rebasedOps_counter counter]
  rcases found : ops key with _ | _ | bytes
  · exact le_rfl
  · exact absurd found (kept key counter)
  · have bound := fit key counter bytes found
    change counterOf (current key) ≤ ofLe (leBytes 8 (max (ofLe bytes) (counterOf (current key))))
    rw [ofLe_leBytes bound]
    exact le_max_right _ _

end Counters

namespace Retrying

/-- What every step under the condition keeps: each handle's operations amount to those
its transaction was given, on every state the device can be in from now on. -/
structure Carried (pageSize : Nat) (state : Retrying) : Prop where
  good : state.world.Good pageSize
  carried : ∃ current, Roots pageSize (Pages.ofArea pageSize state.world.shared.area)
      state.world.shared.next state.world.shared.root current ∧
    ∀ index, NoDrop ((state.world.handle index).pendingOps[·]?) ∧
      ∀ later, Grown current later ->
        rebasedOps ((state.world.handle index).pendingOps[·]?) later =
          rebasedOps (state.intent index) later

variable {pageSize formatVersion : Nat} {state after : Retrying}

theorem noDrop_empty : NoDrop ((∅ : PendingOps)[·]?) := by
  intro key _
  simp

variable {index : Nat} {shared : Shared} {current : Bytes -> Option Bytes}
  {members : List (Nat × AbsorbTxn)}

theorem noDrop_step {world next : World} {call : Call}
    (kept : NoDrop ((world.handle index).pendingOps[·]?)) (keeps : KeepsCounters call)
    (notCommit : call ≠ .commit) (step : world.Step pageSize formatVersion (index, call) next) :
    next.shared = world.shared ∧ (∀ other, other ≠ index → next.handle other = world.handle other) ∧
      NoDrop ((next.handle index).pendingOps[·]?) ∧
      (call = .beginTxn ∨ call = .refresh ->
        (next.handle index).pendingOps = (world.handle index).pendingOps) := by
  have set : ∀ tree, (world.set index tree).shared = world.shared ∧
      (∀ other, other ≠ index -> (world.set index tree).handle other = world.handle other) ∧
      (world.set index tree).handle index = tree := by
    intro tree
    refine ⟨rfl, fun other differs => ?_, ?_⟩
    · simp [World.set, differs]
    · simp [World.set]
  have attempted : ∀ {key : Bytes} {op : Option Bytes} {result : Except Error CowBTree}
      {tree : CowBTree}, (world.handle index).Attempted result tree ->
        (∀ written, result = .ok written -> CowBTree.Wrote (world.handle index) written key op) ->
        (key = nextRowIdMeta ∨ key = cdcFloorMeta -> op ≠ none) ->
          NoDrop (tree.pendingOps[·]?) := by
    intro key op result tree attempt wrote isKept other counter
    cases result with
    | error error =>
      obtain ⟨-, -, -, same⟩ := attempt
      rw [same]
      exact kept other counter
    | ok written =>
      obtain rfl : tree = written := attempt
      rw [(wrote tree rfl).pendingOps]
      beta_reduce
      rw [getElem?_insert]
      split
      · rename_i same
        rw [same] at counter
        exact fun isNone => isKept counter (Option.some.inj isNone)
      · exact kept other counter
  cases call with
  | commit => exact absurd rfl notCommit
  | openHandle =>
    obtain rfl : next = _ := step
    obtain ⟨shared, others, here⟩ := set (world.shared.opened pageSize)
    rw [here]
    exact ⟨shared, others, noDrop_empty, by simp⟩
  | beginTxn =>
    obtain rfl : next = _ := step
    obtain ⟨shared, others, here⟩ := set (world.handle index).beginTxn
    have frame := (world.handle index).beginTxn_frame
    simp only [CowBTree.frame, Prod.mk.injEq] at frame
    obtain ⟨-, -, -, -, ops⟩ := frame
    rw [here, ops]
    exact ⟨shared, others, kept, fun _ => rfl⟩
  | put key value =>
    obtain ⟨-, tree, rfl, attempt⟩ := step
    obtain ⟨shared, others, here⟩ := set tree
    rw [here]
    exact ⟨shared, others,
      attempted attempt (fun written done => CowBTree.put_wrote done) (by simp), by simp⟩
  | delete key =>
    obtain ⟨tree, rfl, attempt⟩ := step
    obtain ⟨shared, others, here⟩ := set tree
    rw [here]
    refine ⟨shared, others,
      attempted attempt (fun written done => CowBTree.delete_wrote done) ?_, by simp⟩
    rintro (isNext | isFloor)
    · exact absurd isNext keeps.1
    · exact absurd isFloor keeps.2
  | rollback =>
    obtain rfl : next = _ := step
    obtain ⟨shared, others, here⟩ := set (world.handle index).rollback
    rw [here]
    exact ⟨shared, others, noDrop_empty, by simp⟩
  | refresh =>
    rcases step with rfl | rfl
    · exact ⟨rfl, fun _ _ => rfl, kept, fun _ => rfl⟩
    · obtain ⟨shared, others, here⟩ := set ((world.handle index).refresh world.shared)
      have ops : ((world.handle index).refresh world.shared).pendingOps =
          (world.handle index).pendingOps := by
        unfold CowBTree.refresh
        split <;> rfl
      rw [here, ops]
      exact ⟨shared, others, kept, fun _ => rfl⟩

theorem Carried.call (small : 128 ≤ pageSize) (large : pageSize < 2 ^ 16)
    (held : Carried pageSize state) {call : Call} (notCommit : call ≠ .commit)
    (keeps : KeepsCounters call)
    (step : state.world.Step pageSize formatVersion (index, call) after.world)
    (intent : after.intent = intentAfter state.intent after.world index call) :
    Carried pageSize after := by
  obtain ⟨current, roots, handles⟩ := held.carried
  obtain ⟨sameShared, others, noDrop, sameOps⟩ :=
    noDrop_step (handles index).1 keeps notCommit step
  refine ⟨held.good.step small large step, current, sameShared ▸ roots, fun other => ?_⟩
  by_cases isIndex : other = index
  · subst isIndex
    refine ⟨noDrop, fun later grown => ?_⟩
    by_cases passive : call = .beginTxn ∨ call = .refresh
    · have sameIntent : after.intent = state.intent := by
        rw [intent]
        rcases passive with rfl | rfl <;> rfl
      rw [sameOps passive, sameIntent]
      exact (handles other).2 later grown
    · have given : after.intent other = ((after.world.handle other).pendingOps[·]?) := by
        rw [intent]
        cases call with
        | beginTxn => exact absurd (.inl rfl) passive
        | refresh => exact absurd (.inr rfl) passive
        | openHandle | put | delete | rollback | commit =>
          simp only [intentAfter, Function.update_self]
      rw [given]
  · have sameIntent : after.intent other = state.intent other := by
      rw [intent]
      unfold intentAfter
      split
      · rfl
      · rfl
      · rw [Function.update_of_ne isIndex]
    rw [others other isIndex, sameIntent]
    exact handles other

theorem reads_of_roots {self : CowBTree} (small : 128 ≤ self.pageSize)
    (roots : Roots self.pageSize (Pages.ofArea self.pageSize shared.area) shared.next shared.root
      current) (key : Bytes) :
    CowBTree.getAt self.pageSize (Pages.ofArea self.pageSize shared.area)
      (max shared.next self.nextPageId) shared.root key = .ok (current key) :=
  (roots.mono (le_max_left shared.next self.nextPageId)).getAt_eq small key

theorem commit_empties {next : Shared} {self tree : CowBTree} {outcome : CommitOutcome}
    (small : 128 ≤ self.pageSize)
    (roots : Roots self.pageSize (Pages.ofArea self.pageSize shared.area) shared.next shared.root
      current) (pending : self.hasPending = true) (notFailed : ∀ error, outcome ≠ .failed error)
    (done : shared.commit formatVersion self = (outcome, tree, next)) :
    tree.pendingOps = ∅ ∧
      (outcome = .committed -> CountersFit (self.pendingOps[·]?) current) := by
  rw [Shared.commit, if_pos pending] at done
  cases prepare : self.prepareCommit (Pages.ofArea self.pageSize shared.area) formatVersion
      shared.root shared.next shared.seq with
  | error failure =>
    rw [prepare] at done
    cases done
    exact absurd rfl (notFailed _)
  | ok result =>
    rw [prepare] at done
    cases result with
    | none =>
      cases done
      exact ⟨rfl, by simp⟩
    | some written =>
      obtain ⟨ready, record⟩ := written
      cases done
      obtain ⟨rebased, isRebased, -⟩ := CowBTree.prepareCommit_eq_some.mp prepare
      exact ⟨rfl, fun _ =>
        (CowBTree.rebasePending_pendingOps (reads_of_roots small roots) isRebased).1⟩

theorem Carried.commit (small : 128 ≤ pageSize) (large : pageSize < 2 ^ 16)
    (held : Carried pageSize state)
    (step : state.world.Step pageSize formatVersion (index, .commit) after.world)
    (intent : after.intent = intentAfter state.intent after.world index .commit)
    (notFailed : ∀ error, (state.world.shared.commit formatVersion
      (state.world.handle index)).1 ≠ .failed error) :
    Carried pageSize after := by
  have good := held.good.step small large step
  obtain ⟨current, roots, handles⟩ := held.carried
  obtain ⟨outcome, tree, shared, done, isAfter, room⟩ := step
  rw [done] at notFailed
  have here : after.world.handle index = tree := by simp [isAfter, World.set]
  have others : ∀ other, other ≠ index -> after.world.handle other = state.world.handle other := by
    intro other differs
    simp [isAfter, World.set, differs]
  have given : after.intent index = (tree.pendingOps[·]?) := by
    rw [intent, <- here]
    simp only [intentAfter, Function.update_self]
  have kept : ∀ other, other ≠ index -> after.intent other = state.intent other := by
    intro other differs
    rw [intent]
    simp only [intentAfter]
    rw [Function.update_of_ne differs]
  -- The others carry on from whatever the commit left, once the counters are known to grow.
  have onward : ∀ next, Roots pageSize (Pages.ofArea pageSize shared.area) shared.next shared.root
      next -> Grown current next -> NoDrop (tree.pendingOps[·]?) -> Carried pageSize after := by
    intro next nextRoots grown noDrop
    refine ⟨good, next, ?_, fun other => ?_⟩
    · rw [isAfter]
      exact nextRoots
    · by_cases isIndex : other = index
      · subst isIndex
        rw [here, given]
        exact ⟨noDrop, fun _ _ => rfl⟩
      · rw [others other isIndex, kept other isIndex]
        exact ⟨(handles other).1, fun later laterGrown =>
          (handles other).2 later (grown.trans laterGrown)⟩
  have own := held.good.handles index
  by_cases pending : (state.world.handle index).hasPending = true
  · have ownSmall : 128 ≤ (state.world.handle index).pageSize := own.size ▸ small
    obtain ⟨empties, fits⟩ := commit_empties ownSmall (own.size ▸ roots) pending notFailed done
    have noDrop : NoDrop (tree.pendingOps[·]?) := by
      rw [empties]
      exact noDrop_empty
    rcases Shared.commit_cases small large held.good.positive roots own pending done room with
      ⟨error, isFailed, -⟩ | ⟨-, rfl, -, -⟩ | ⟨isCommitted, -, -, newRoots, -, -⟩
    · exact absurd isFailed (notFailed error)
    · exact onward current roots (.refl _) noDrop
    · exact onward _ newRoots (.overlaid (handles index).1 (fits isCommitted)) noDrop
  · rw [Shared.commit, if_neg pending] at done
    cases done
    exact onward current roots (.refl _) (handles index).1

theorem leadCohort_refused (formatVersion : Nat) (leading : Leading) {available : Nat}
    (refused : RefusedAtSight leading.records available members) :
    (leading.leadCohort formatVersion available false members).2 = leading := by
  have stopped : ∀ members : List (Nat × AbsorbTxn),
      (leading.leadCohort formatVersion available true members).2 = leading := by
    intro members
    induction members with
    | nil => rfl
    | cons member members ih =>
      simp only [Leading.leadCohort, true_or, if_true]
      exact ih
  cases members with
  | nil => rfl
  | cons member members =>
    obtain ⟨token, txn⟩ := member
    have atSight : leading.records.length * 2 ≥ available ∨
        txn.ops.keys.any (freeListPrefix.isPrefixOf ·) = true := refused
    simp only [Leading.leadCohort, Bool.false_eq_true, false_or]
    rw [if_pos atSight]
    exact stopped members

theorem Carried.left (held : Carried pageSize state) {left : CowBTree} {next : Bytes → Option Bytes}
    (handles : ∀ index, NoDrop ((state.world.handle index).pendingOps[·]?) ∧
      ∀ later, Grown current later -> rebasedOps ((state.world.handle index).pendingOps[·]?) later =
          rebasedOps (state.intent index) later) (onward : state.world.shared.next ≤ shared.next)
    (sameArea : ∀ id < state.world.shared.next, shared.area id = state.world.shared.area id)
    (room : shared.next ≤ 2 ^ 64)
    (roots : Roots pageSize (Pages.ofArea pageSize shared.area) shared.next shared.root next)
    (grown : Grown current next)
    (anchored : left.Anchored pageSize (Pages.ofArea pageSize shared.area) shared.next)
    (noDrop : NoDrop (left.pendingOps[·]?))
    (same : ∀ later, Grown next later -> rebasedOps (left.pendingOps[·]?) later =
      rebasedOps ((state.world.handle index).pendingOps[·]?) later)
    (isAfter : after = { state with world := { state.world.set index left with shared } }) :
    Carried pageSize after := by
  subst isAfter
  refine ⟨⟨held.good.positive.trans_le onward, room, ⟨next, roots⟩, fun other => ?_⟩, next, roots,
    fun other => ?_⟩
  · by_cases isIndex : other = index
    · subst isIndex
      simpa [World.set] using anchored
    · simpa [World.set, isIndex] using (held.good.handles other).frame sameArea onward
  · by_cases isIndex : other = index
    · subst isIndex
      simp only [World.set, Function.update_self]
      refine ⟨noDrop, fun later laterGrown => ?_⟩
      exact (same later laterGrown).trans ((handles other).2 later (grown.trans laterGrown))
    · simp only [World.set, Function.update_of_ne isIndex]
      exact ⟨(handles other).1, fun later laterGrown =>
        (handles other).2 later (grown.trans laterGrown)⟩

section

variable (small : 128 ≤ pageSize) (large : pageSize < 2 ^ 16)

include small large

theorem Carried.fail (held : Carried pageSize state) {failure : Failure} {device : RegionLog}
    (isShared : device.shared = state.world.shared) {left : CowBTree}
    (pending : (state.world.handle index).hasPending = true)
    (fails : CommitFails formatVersion device (state.world.handle index) members failure left
      shared) (harmless : Harmless formatVersion device (state.world.handle index) members failure)
    (room : shared.next ≤ 2 ^ 64)
    (isAfter : after = { state with world := { state.world.set index left with shared } }) :
    Carried pageSize after := by
  obtain ⟨current, roots, handles⟩ := held.carried
  have own := held.good.handles index
  have ownSmall : 128 ≤ (state.world.handle index).pageSize := own.size ▸ small
  -- What a complete rebase left, in whatever the device became.
  have replayed : ∀ rebased, (state.world.handle index).rebasePending
      (Pages.ofArea (state.world.handle index).pageSize device.shared.area) device.shared.root
        device.shared.next = .ok (some rebased) -> RecordFree device.shared
          (state.world.handle index) -> SameTxn left rebased ->
      state.world.shared.next ≤ shared.next ->
      (∀ id < state.world.shared.next, shared.area id = state.world.shared.area id) ->
      (∃ next, Roots pageSize (Pages.ofArea pageSize shared.area) shared.next shared.root next ∧
        (CountersFit ((state.world.handle index).pendingOps[·]?) current -> Grown current next)) ->
      Carried pageSize after := by
    intro rebased isRebased free same onward sameArea ⟨next, nextRoots, grows⟩
    rw [isShared] at isRebased free
    have ownRoots := own.size.symm ▸ roots
    obtain ⟨fit, eachOp⟩ :=
      CowBTree.rebasePending_pendingOps (reads_of_roots ownSmall ownRoots) isRebased
    have clear : Clear ((state.world.handle index).pendingOps[·]?) current :=
      free current fun key => ownRoots.getAt_eq ownSmall key
    have grown := grows fit
    have ops : (left.pendingOps[·]?) =
        rebasedOps ((state.world.handle index).pendingOps[·]?) current := by
      funext key
      rw [same.pendingOps]
      exact eachOp key
    have anchored := (own.size.symm ▸ own : (state.world.handle index).Anchored
      (state.world.handle index).pageSize _ _).of_rebase ownSmall ownRoots isRebased
    rw [own.size] at anchored
    have leftAnchored : left.Anchored pageSize
        (Pages.ofArea pageSize state.world.shared.area) state.world.shared.next := by
      obtain ⟨contents, rebasedRoots⟩ := anchored.root
      exact ⟨same.pageSize.trans anchored.size, ⟨contents, same.root ▸ rebasedRoots⟩,
        same.nextPageId ▸ anchored.next_le, same.pendingOps ▸ anchored.opsFit⟩
    refine held.left handles onward sameArea room nextRoots grown
      (leftAnchored.frame sameArea onward) ?_ ?_ isAfter
    · rw [ops]
      exact (handles index).1.rebased
    · intro later laterGrown
      rw [ops]
      exact rebasedOps_rebased fit clear (grown.trans laterGrown)
  have spilledRoots : Spilled device.shared shared -> state.world.shared.next ≤ shared.next ∧
      (∀ id < state.world.shared.next, shared.area id = state.world.shared.area id) ∧
      Roots pageSize (Pages.ofArea pageSize shared.area) shared.next shared.root current := by
    intro spilled
    rw [isShared] at spilled
    refine ⟨spilled.next.ge, spilled.area, ?_⟩
    rw [spilled.root, spilled.next]
    exact roots.frame spilled.area
  cases fails with
  | beforeMerge =>
    rw [isShared] at room isAfter
    exact held.left handles le_rfl (fun _ _ => rfl) room roots (.refl _) own (handles index).1
      (fun _ _ => rfl) isAfter
  | inMerge => exact harmless.elim
  | inReplay => exact harmless.elim
  | @afterReplay rebased _ _ isRebased same spilled =>
    obtain ⟨onward, sameArea, newRoots⟩ := spilledRoots spilled
    exact replayed rebased isRebased harmless same onward sameArea
      ⟨current, newRoots, fun _ => .refl _⟩
  | @afterCohort ready _ record cohort led _ prepared isLed same written =>
    obtain ⟨free, refused⟩ := harmless
    obtain ⟨rebased, isRebased, isEncoded, isRecord, -⟩ :=
      CowBTree.prepareCommit_eq_some.mp prepared
    have untouched : led = leadingAfter formatVersion device ready record := by
      have kept := leadCohort_refused formatVersion
        (leadingAfter formatVersion device ready record) (refused ready record prepared)
      rw [isLed] at kept
      exact kept
    have sameRebased : SameTxn left rebased := by
      obtain ⟨dirty, -, isReady⟩ := bind_eq_ok isEncoded
      cases isReady
      rw [untouched] at same
      exact ⟨same.pageSize, same.root, same.nextPageId, same.hasPending, same.pendingOps⟩
    rcases written with spilled | isCommitted
    · obtain ⟨onward, sameArea, newRoots⟩ := spilledRoots spilled
      exact replayed rebased isRebased free sameRebased onward sameArea
        ⟨current, newRoots, fun _ => .refl _⟩
    · rw [untouched, leadingAfter] at isCommitted
      have done : state.world.shared.commit formatVersion (state.world.handle index) =
          (.committed, ready.settled, shared) := by
        rw [Shared.commit, if_pos pending, <- isShared, prepared]
        simp only [isCommitted, WalRecord.point]
      rcases Shared.commit_cases small large held.good.positive roots own pending done room with
        ⟨error, isFailed, -⟩ | ⟨isConflict, -⟩ | ⟨-, onward, sameArea, newRoots, -, -⟩
      · cases isFailed
      · cases isConflict
      · exact replayed rebased isRebased free sameRebased onward sameArea
          ⟨_, newRoots, fun fit => .overlaid (handles index).1 fit⟩

theorem carried_of_runs {guarded : Prop} (holds : guarded) {calls : List RetryCall}
    (run : (retrying pageSize formatVersion guarded).Runs calls state) :
    Carried pageSize state := by
  refine System.Runs.invariant (fun _ state => Carried pageSize state) ?_ ?_ run
  · rintro state rfl
    refine ⟨World.empty_good pageSize, _, .empty _ _ _,
      fun index => ⟨noDrop_empty, fun later _ => congrArg (rebasedOps · later) ?_⟩⟩
    have none : ((World.empty pageSize).handle index).pendingOps = ∅ := rfl
    funext key
    rw [none]
    simp
  · rintro calls state (⟨index, call⟩ | ⟨index, failure⟩) after held step
    · obtain ⟨moves, intent, notFailed, keeps⟩ := step
      by_cases isCommit : call = .commit
      · subst isCommit
        exact held.commit small large moves intent (notFailed rfl)
      · exact held.call small large isCommit (keeps holds) moves intent
    · obtain ⟨device, isShared, members, left, shared, pending, fails, harmless, room, isAfter⟩ :=
        step
      exact held.fail small large isShared pending fails (harmless holds) room isAfter

end

end Retrying

/-- **Failed commits.** In every run whose failures are harmless, a commit that succeeds
applies the operations its transaction was given, however often it failed before, unless
the handle has no open transaction. -/
theorem failed_commit_keeps_transaction {pageSize formatVersion : Nat} (small : 128 ≤ pageSize)
    (large : pageSize < 2 ^ 16) {guarded : Prop} (holds : guarded) {calls : List RetryCall}
    {state : Retrying} (run : (retrying pageSize formatVersion guarded).Runs calls state)
    (index : Nat) {tree : CowBTree} {after : Shared}
    (done : state.world.shared.commit formatVersion (state.world.handle index) =
      (.committed, tree, after)) (room : after.next ≤ 2 ^ 64) :
    ((state.world.handle index).hasPending = false ∧ after = state.world.shared) ∨ ∃ current,
        (∀ key, state.world.shared.getAt pageSize state.world.shared.root key = .ok (current key)) ∧
        ∀ key, after.getAt pageSize after.root key =
          .ok (overlaid (state.intent index) current key) := by
  have held := Retrying.carried_of_runs small large holds run
  obtain ⟨current, roots, handles⟩ := held.carried
  by_cases pending : (state.world.handle index).hasPending = true
  · rcases Shared.commit_cases small large held.good.positive roots (held.good.handles index)
      pending done room with
      ⟨error, isFailed, -⟩ | ⟨isConflict, -⟩ | ⟨-, -, -, newRoots, -, -⟩
    · cases isFailed
    · cases isConflict
    · refine .inr ⟨current, fun key => roots.getAt_eq small key, fun key => ?_⟩
      have read := newRoots.getAt_eq small key
      have same := (handles index).2 current (.refl _)
      rw [overlaid, same] at read
      exact read
  · rw [Shared.commit, if_neg pending] at done
    cases done
    exact .inl ⟨by simpa using pending, rfl⟩

/-! ## Two transactions that failed -/

theorem runs_put {guarded : Prop} {calls : List RetryCall} {state : Retrying}
    (run : (retrying 128 6 guarded).Runs calls state) (index : Nat) (key value : Bytes)
    (short : value.length ≤ maxRecordLen 128)
    (room : (state.world.call 128 6 (index, .put key value)).shared.next ≤ 2 ^ 64) :
    (retrying 128 6 guarded).Runs (calls ++ [.own index (.put key value)])
      ⟨state.world.call 128 6 (index, .put key value), Retrying.intentAfter state.intent
        (state.world.call 128 6 (index, .put key value)) index (.put key value)⟩ := by
  obtain ⟨start, initial, steps⟩ := run
  refine ⟨start, initial, .step steps ⟨World.call_step ?_ room, rfl, by simp, fun _ => trivial⟩⟩
  rintro _ _ ⟨⟩
  exact short

theorem runs_retry_nil (guarded : Prop) :
    (retrying 128 6 guarded).Runs [] ⟨World.empty 128, fun _ _ => none⟩ := ⟨_, rfl, .refl⟩

/-- A commit fails after its operations are replayed, for want of room in the log say.
The next one applies the transaction. -/
theorem late_failure_retried : ∃ state tree after,
    (retrying 128 6 True).Runs [.own 0 (.put [1] [2]), .fail 0 .afterReplay] state ∧
      state.world.shared.commit 6 (state.world.handle 0) = (.committed, tree, after) ∧
      after.getAt 128 after.root [1] = .ok (some [2]) := by
  have putRun := runs_put (runs_retry_nil True) 0 [1] [2] (by decide) (by decide +kernel)
  let world := (World.empty 128).call 128 6 (0, .put [1] [2])
  let device : RegionLog := ⟨world.shared, 256, 33024, [], ⟨0, 1, 0⟩⟩
  have pending : (world.handle 0).hasPending = true := by decide +kernel
  let left := ((world.handle 0).rebasePending (Pages.ofArea 128 world.shared.area)
    world.shared.root world.shared.next).toOption.join.getD (world.handle 0)
  have isSome : ((world.handle 0).rebasePending (Pages.ofArea 128 world.shared.area)
      world.shared.root world.shared.next).toOption.join.isSome = true := by decide +kernel
  have isRebased : (world.handle 0).rebasePending (Pages.ofArea 128 world.shared.area)
      world.shared.root world.shared.next = .ok (some left) := by
    simp only [left]
    generalize (world.handle 0).rebasePending (Pages.ofArea 128 world.shared.area)
      world.shared.root world.shared.next = result at isSome ⊢
    rcases result with _ | _ | rebased
    · cases isSome
    · cases isSome
    · rfl
  have free : RecordFree world.shared (world.handle 0) := by
    intro current reads bytes isVersion
    have none : (world.handle 0).pendingOps[writeVersionMeta]? = none := by decide +kernel
    rw [show (world.handle 0).pendingOps[writeVersionMeta]? = some (some bytes) from isVersion]
      at none
    cases none
  let retried : World := { world.set 0 left with shared := world.shared }
  have run : (retrying 128 6 True).Runs [.own 0 (.put [1] [2]), .fail 0 .afterReplay]
      ⟨retried, Retrying.intentAfter (fun _ _ => none) world 0 (.put [1] [2])⟩ := by
    obtain ⟨start, initial, steps⟩ := putRun
    exact ⟨start, initial, .step steps ⟨device, rfl, [], left, world.shared, pending,
      .afterReplay isRebased ⟨rfl, rfl, rfl, rfl, rfl⟩ ⟨rfl, rfl, rfl, fun _ _ => rfl⟩,
      fun _ => free, by decide +kernel, rfl⟩⟩
  have isCommitted : (retried.shared.commit 6 (retried.handle 0)).1 = .committed := by
    decide +kernel
  have isPending : (retried.handle 0).hasPending = true := by decide +kernel
  have room : (retried.shared.commit 6 (retried.handle 0)).2.2.next ≤ 2 ^ 64 := by decide +kernel
  generalize done : retried.shared.commit 6 (retried.handle 0) = result at isCommitted room
  obtain ⟨outcome, tree, after⟩ := result
  obtain rfl : outcome = .committed := isCommitted
  rcases failed_commit_keeps_transaction (by decide) (by decide) trivial run 0 done room with
    ⟨closed, -⟩ | ⟨current, -, reads⟩
  · rw [isPending] at closed
    cases closed
  · have unversioned : Retrying.intentAfter (fun _ _ => none) world 0 (.put [1] [2]) 0
        writeVersionMeta = none := by decide +kernel
    have given : Retrying.intentAfter (fun _ _ => none) world 0 (.put [1] [2]) 0 [1] =
        some (some [2]) := by decide +kernel
    refine ⟨_, tree, after, run, done, ?_⟩
    rw [reads, overlaid, rebasedOps]
    simp only [unversioned]
    rw [maxedOps_other (by decide) (by decide), given]
    rfl

/-- A commit whose counter is not eight bytes fails while it merges. The next one reports
success and has applied nothing. -/
theorem merge_failure_loses_transaction : ∃ before state tree after,
    (retrying 128 6 False).Runs [.own 0 (.put nextRowIdMeta [1]), .own 0 (.put [1] [2])] before ∧
      (before.world.shared.commit 6 (before.world.handle 0)).1 =
        .failed (.corrupt "monotonic metadata counter is not eight bytes") ∧
      (retrying 128 6 False).Runs [.own 0 (.put nextRowIdMeta [1]), .own 0 (.put [1] [2]),
        .fail 0 .inMerge] state ∧
      (state.world.handle 0).hasPending = true ∧ state.intent 0 [1] = some (some [2]) ∧
      state.world.shared.commit 6 (state.world.handle 0) = (.committed, tree, after) ∧
      after.getAt 128 after.root [1] = .ok none := by
  have putRun := runs_put (runs_put (runs_retry_nil False) 0 nextRowIdMeta [1] (by decide)
    (by decide +kernel)) 0 [1] [2] (by decide) (by decide +kernel)
  let world := ((World.empty 128).call 128 6 (0, .put nextRowIdMeta [1])).call 128 6
    (0, .put [1] [2])
  let device : RegionLog := ⟨world.shared, 256, 33024, [], ⟨0, 1, 0⟩⟩
  let left : CowBTree := { world.handle 0 with pendingOps := ∅ }
  let emptied : World := { world.set 0 left with shared := world.shared }
  have counted : (world.handle 0).pendingOps[nextRowIdMeta]? = some (some [1]) := by
    decide +kernel
  have fails : CommitFails 6 device (world.handle 0) [] .inMerge left world.shared :=
    .inMerge ⟨nextRowIdMeta, by simp, [1], counted⟩
  have pending : (world.handle 0).hasPending = true := by decide +kernel
  have isCommitted : (emptied.shared.commit 6 (emptied.handle 0)).1 = .committed := by
    decide +kernel
  have absent : ((emptied.shared.commit 6 (emptied.handle 0)).2.2.getAt 128
      (emptied.shared.commit 6 (emptied.handle 0)).2.2.root [1]).toOption = some none := by
    decide +kernel
  have failed : (world.shared.commit 6 (world.handle 0)).1 =
      .failed (.corrupt "monotonic metadata counter is not eight bytes") := by decide +kernel
  have ⟨start, initial, steps⟩ := putRun
  generalize done : emptied.shared.commit 6 (emptied.handle 0) = result at isCommitted absent
  obtain ⟨outcome, tree, after⟩ := result
  obtain rfl : outcome = .committed := isCommitted
  refine ⟨_, _, tree, after, putRun, failed, ⟨start, initial, .step steps ⟨device, rfl, [], left,
    world.shared, pending, fails, False.elim, by decide +kernel, rfl⟩⟩, pending,
    by decide +kernel, done, ?_⟩
  generalize after.getAt 128 after.root [1] = result at absent ⊢
  rcases result with _ | value
  · cases absent
  · cases absent
    rfl

end InlaySql.Btree
