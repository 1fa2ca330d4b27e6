import InlaySql.Btree.Failure

/-!
# Rolling back after a commit that failed

A commit that fails leaves its handle on the root it had or on the committed one, and the
device with the committed state it had, unless the records were being appended. So a
rollback leaves the handle on a committed root, provided it had not gone on to commit a
cohort: a leader that takes members moves its own root along with them.
-/

namespace InlaySql.Btree

open Lib Wal

/-- A commit that fails after its records were made took no member into them. -/
def TakesNone (formatVersion : Nat) (device : RegionLog) (self : CowBTree)
    (members : List (Nat × AbsorbTxn)) : Failure -> Prop
  | .afterCohort => ∀ ready record,
      self.prepareCommit (Pages.ofArea self.pageSize device.shared.area) formatVersion
        device.shared.root device.shared.next device.shared.seq = .ok (some (ready, record)) ->
          RefusedAtSight (encodeRecord formatVersion record)
            (regionLeft formatVersion device record) members
  | _ => True

/-- What a failed commit leaves: a handle with a committed root, older pages as they were,
and, before the records are appended, the committed state it found. -/
structure Leaves (pageSize : Nat) (world : World) (index : Nat) (failure : Failure)
    (left : CowBTree) (shared : Shared) : Prop where
  next_le : world.shared.next ≤ shared.next
  area : ∀ id < world.shared.next, shared.area id = world.shared.area id
  roots : ∃ contents, Roots pageSize (Pages.ofArea pageSize shared.area) shared.next shared.root
    contents
  anchored : left.Anchored pageSize (Pages.ofArea pageSize world.shared.area) world.shared.next
  root : left.root = (world.handle index).root ∨ left.root = world.shared.root
  committed : failure ≠ .afterCohort -> shared.root = world.shared.root

section Leaves

variable {pageSize formatVersion index : Nat} {world : World} {device : RegionLog}
  {members : List (Nat × AbsorbTxn)} {failure : Failure} {left : CowBTree} {shared : Shared}

theorem rebased_root {pages : Pages} {self rebased : CowBTree} {root next : Nat}
    {current : Bytes -> Option Bytes} (small : 128 ≤ self.pageSize)
    (anchored : self.Anchored self.pageSize pages next)
    (nowRoots : Roots self.pageSize pages next root current)
    (done : self.rebasePending pages root next = .ok (some rebased)) : rebased.root = root := by
  obtain ⟨ops, -, opFits, isReplayed⟩ :=
    CowBTree.rebasePending_some small nowRoots anchored.opsFit done
  have startFits : ∀ op ∈ ops.toList, CowBTree.OpFits (self.resetTo root next).pageSize op := opFits
  exact ((CowBTree.replay_replayed startFits).1 isReplayed).root

theorem CommitFails.leaves (small : 128 ≤ pageSize) (large : pageSize < 2 ^ 16)
    (good : world.Good pageSize) (isShared : device.shared = world.shared)
    (pending : (world.handle index).hasPending = true)
    (fails : CommitFails formatVersion device (world.handle index) members failure left shared)
    (takesNone : TakesNone formatVersion device (world.handle index) members failure)
    (room : shared.next ≤ 2 ^ 64) : Leaves pageSize world index failure left shared := by
  obtain ⟨current, roots⟩ := good.current
  have own := good.handles index
  have ownSmall : 128 ≤ (world.handle index).pageSize := own.size ▸ small
  have ownRoots := own.size.symm ▸ roots
  have ownAnchored : (world.handle index).Anchored (world.handle index).pageSize
      (Pages.ofArea (world.handle index).pageSize world.shared.area) world.shared.next :=
    own.size.symm ▸ own
  -- A rebased handle, whatever else the commit did to its pages.
  have rebasedLeft : ∀ rebased, (world.handle index).rebasePending
      (Pages.ofArea (world.handle index).pageSize device.shared.area) device.shared.root
        device.shared.next = .ok (some rebased) -> SameTxn left rebased ->
      left.Anchored pageSize (Pages.ofArea pageSize world.shared.area) world.shared.next ∧
        left.root = world.shared.root := by
    intro rebased isRebased same
    rw [isShared] at isRebased
    have anchored := ownAnchored.of_rebase ownSmall ownRoots isRebased
    rw [own.size] at anchored
    obtain ⟨contents, rebasedRoots⟩ := anchored.root
    refine ⟨⟨same.pageSize.trans anchored.size, ⟨contents, same.root ▸ rebasedRoots⟩,
      same.nextPageId ▸ anchored.next_le, same.pendingOps ▸ anchored.opsFit⟩, ?_⟩
    rw [same.root]
    exact rebased_root ownSmall ownAnchored ownRoots isRebased
  have spilled : Spilled device.shared shared -> left.Anchored pageSize
      (Pages.ofArea pageSize world.shared.area) world.shared.next ->
      (left.root = (world.handle index).root ∨ left.root = world.shared.root) ->
      Leaves pageSize world index failure left shared := by
    intro spilled anchored root
    rw [isShared] at spilled
    refine ⟨spilled.next.ge, spilled.area, ⟨current, ?_⟩, anchored, root, fun _ => spilled.root⟩
    rw [spilled.root, spilled.next]
    exact roots.frame spilled.area
  have unchanged : Spilled device.shared device.shared := ⟨rfl, rfl, rfl, fun _ _ => rfl⟩
  cases fails with
  | beforeMerge => exact spilled unchanged own (.inl rfl)
  | inMerge => exact spilled unchanged ⟨own.size, own.root, own.next_le, .empty _⟩ (.inl rfl)
  | @inReplay ops replayed rest op reached _ merged isOps isReached same =>
    rw [isShared] at merged isReached
    have eachOp := mergeMonotonicMetadata_eq (Retrying.reads_of_roots ownSmall ownRoots) merged
    have opFits : ∀ op ∈ replayed, CowBTree.OpFits ((world.handle index).resetTo world.shared.root
          world.shared.next).pageSize op := by
      rintro ⟨key, op⟩ member
      refine (ownAnchored.opsFit.merged ownSmall eachOp) key op
        (Std.TreeMap.mem_toList_iff_getElem?_eq_some.mp ?_)
      rw [isOps]
      exact List.mem_append_left _ member
    have reachedFrom := (CowBTree.replay_replayed opFits).1 isReached
    have isRoot : left.root = world.shared.root := same.root.trans reachedFrom.root
    refine spilled unchanged ⟨(same.pageSize.trans reachedFrom.pageSize).trans own.size,
      ⟨current, isRoot ▸ roots⟩, ?_, ?_⟩ (.inr isRoot)
    · rw [same.nextPageId]
      exact reachedFrom.nextPageId.trans_le (max_le le_rfl own.next_le)
    · rw [same.pendingOps, <- own.size]
      exact reachedFrom.opsFit (.empty _)
  | @afterReplay rebased _ _ isRebased same isSpilled =>
    obtain ⟨anchored, isRoot⟩ := rebasedLeft rebased isRebased same
    exact spilled isSpilled anchored (.inr isRoot)
  | @afterCohort ready _ record cohort led _ prepared isLed same written =>
    obtain ⟨rebased, isRebased, isEncoded, isRecord, -⟩ :=
      CowBTree.prepareCommit_eq_some.mp prepared
    have untouched : led = leadingAfter formatVersion device ready record := by
      have kept := Retrying.leadCohort_refused formatVersion
        (leadingAfter formatVersion device ready record) (takesNone ready record prepared)
      rw [isLed] at kept
      exact kept
    have sameRebased : SameTxn left rebased := by
      obtain ⟨dirty, -, isReady⟩ := bind_eq_ok isEncoded
      cases isReady
      rw [untouched] at same
      exact ⟨same.pageSize, same.root, same.nextPageId, same.hasPending, same.pendingOps⟩
    obtain ⟨anchored, isRoot⟩ := rebasedLeft rebased isRebased sameRebased
    rcases written with isSpilled | isCommitted
    · exact spilled isSpilled anchored (.inr isRoot)
    · rw [untouched, leadingAfter] at isCommitted
      have done : world.shared.commit formatVersion (world.handle index) =
          (.committed, ready.settled, shared) := by
        rw [Shared.commit, if_pos pending, <- isShared, prepared]
        simp only [isCommitted, WalRecord.point]
      rcases Shared.commit_cases small large good.positive roots own pending done room with
        ⟨error, isFailed, -⟩ | ⟨isConflict, -⟩ | ⟨-, onward, sameArea, newRoots, -, -⟩
      · cases isFailed
      · cases isConflict
      · exact ⟨onward, sameArea, ⟨_, newRoots⟩, anchored, .inr isRoot,
          fun before => absurd rfl before⟩

theorem World.Good.fail (good : world.Good pageSize)
    (leaves : Leaves pageSize world index failure left shared) (room : shared.next ≤ 2 ^ 64) :
    World.Good pageSize { world.set index left with shared } := by
  refine ⟨good.positive.trans_le leaves.next_le, room, leaves.roots, fun other => ?_⟩
  by_cases isIndex : other = index
  · subst isIndex
    simpa [World.set] using leaves.anchored.frame leaves.area leaves.next_le
  · simpa [World.set, isIndex] using (good.handles other).frame leaves.area leaves.next_le

end Leaves

end InlaySql.Btree
