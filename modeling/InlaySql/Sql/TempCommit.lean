import InlaySql.Sql.TempStorage

/-!
# A commit over both sides of the router

From a moment without an open transaction, through the writes of one and whatever other
handles do meanwhile, to its commit: the temporary side is committed exactly when the
durable commit reports success. Otherwise the temporary side is as it was before the
transaction, and the durable side shows a committed state without the transaction's
writes, which need not be the one from before it.
-/

namespace InlaySql.Btree.World

open Lib

variable {pageSize formatVersion index : Nat} {world after : World}

theorem Step.handle_other {call : Call} (step : world.Step pageSize formatVersion (index, call) after)
    {other : Nat} (apart : other ≠ index) : after.handle other = world.handle other := by
  have set : ∀ tree, (world.set index tree).handle other = world.handle other := by
    intro tree
    simp [World.set, apart]
  cases call with
  | openHandle | beginTxn | rollback =>
    obtain rfl : after = _ := step
    exact set _
  | put key value =>
    obtain ⟨-, tree, rfl, -⟩ := step
    exact set _
  | delete key =>
    obtain ⟨tree, rfl, -⟩ := step
    exact set _
  | refresh =>
    rcases step with rfl | rfl
    · rfl
    · exact set _
  | commit =>
    obtain ⟨outcome, tree, shared, -, rfl, -⟩ := step
    exact set _

theorem Step.older_pages (small : 128 ≤ pageSize) (large : pageSize < 2 ^ 16)
    (good : world.Good pageSize) {call : Call}
    (step : world.Step pageSize formatVersion (index, call) after) :
    world.shared.next ≤ after.shared.next ∧
      ∀ id < world.shared.next, after.shared.area id = world.shared.area id := by
  have same : after.shared = world.shared -> world.shared.next ≤ after.shared.next ∧
      ∀ id < world.shared.next, after.shared.area id = world.shared.area id := by
    intro same
    rw [same]
    exact ⟨le_rfl, fun _ _ => rfl⟩
  cases call with
  | openHandle | beginTxn | rollback =>
    obtain rfl : after = _ := step
    exact same rfl
  | put key value =>
    obtain ⟨-, tree, rfl, -⟩ := step
    exact same rfl
  | delete key =>
    obtain ⟨tree, rfl, -⟩ := step
    exact same rfl
  | refresh =>
    rcases step with rfl | rfl
    · exact same rfl
    · exact same rfl
  | commit =>
    obtain ⟨outcome, tree, shared, done, rfl, room⟩ := step
    obtain ⟨current, roots⟩ := good.current
    by_cases pending : (world.handle index).hasPending = true
    · rcases Shared.commit_cases small large good.positive roots (good.handles index) pending
        done room with ⟨error, -, rfl, -⟩ | ⟨-, rfl, -⟩ | ⟨-, nextLe, older, -⟩
      · exact same rfl
      · exact same rfl
      · exact ⟨nextLe, older⟩
    · rw [Shared.commit, if_neg pending] at done
      cases done
      exact same rfl

theorem Step.root_of_write {call : Call}
    (step : world.Step pageSize formatVersion (index, call) after)
    (isWrite : call = .beginTxn ∨ (∃ key value, call = .put key value) ∨ ∃ key, call = .delete key) :
    (after.handle index).root = (world.handle index).root := by
  have attempted : ∀ {key : Bytes} {op : Option Bytes} {result : Except Error CowBTree}
      {tree : CowBTree}, (world.handle index).Attempted result tree ->
        (∀ written, result = .ok written -> CowBTree.Wrote (world.handle index) written key op) ->
          tree.root = (world.handle index).root := by
    intro key op result tree attempt wrote
    cases result with
    | error error => exact attempt.2.1
    | ok written =>
      obtain rfl : tree = written := attempt
      exact (wrote tree rfl).root
  rcases isWrite with rfl | ⟨key, value, rfl⟩ | ⟨key, rfl⟩
  · obtain rfl : after = _ := step
    have frame := (world.handle index).beginTxn_frame
    simp only [CowBTree.frame, Prod.mk.injEq] at frame
    simpa [World.set] using frame.2.1
  · obtain ⟨-, tree, rfl, attempt⟩ := step
    simpa [World.set] using attempted attempt fun written done => CowBTree.put_wrote done
  · obtain ⟨tree, rfl, attempt⟩ := step
    simpa [World.set] using attempted attempt fun written done => CowBTree.delete_wrote done

end InlaySql.Btree.World

namespace InlaySql.Sql

open Lib Btree

namespace TempTableRouter

variable {pageSize formatVersion index : Nat} {guarded : Prop}
  {start state after : TempTableRouter}

theorem treeCall_write (write : StorageWrite) :
    write.treeCall = .beginTxn ∨ (∃ key value, write.treeCall = .put key value) ∨
      ∃ key, write.treeCall = .delete key := by
  cases write <;> simp [StorageWrite.treeCall]

section

variable (small : 128 ≤ pageSize) (large : pageSize < 2 ^ 16) (holds : guarded)

include small large holds

theorem good_step (good : state.world.Good pageSize) {call : RouterCall}
    (step : state.Step pageSize formatVersion index guarded call after) :
    after.world.Good pageSize := by
  cases call with
  | write write =>
    simp only [Step] at step
    split at step
    · subst step
      exact good
    · obtain ⟨world, moves, rfl⟩ := step
      exact good.step small large moves
  | setTempTable table temporary =>
    obtain rfl : after = _ := step
    exact good
  | beginTxn | refresh | rollback =>
    obtain ⟨world, moves, rfl⟩ := step
    exact good.step small large moves
  | other handle call =>
    obtain ⟨-, world, moves, rfl⟩ := step
    exact good.step small large moves
  | commit | conflict =>
    obtain ⟨world, ⟨tree, shared, done, room, rfl⟩, rfl⟩ := step
    exact good.commit small large done room
  | fail failure =>
    obtain ⟨world, ⟨device, isShared, members, left, shared, pending, fails, takesNone, room,
      rfl⟩, rfl⟩ := step
    exact good.fail (fails.leaves small large good isShared pending (takesNone holds) room) room

theorem good_of_routing {calls : List RouterCall}
    (run : (routing pageSize formatVersion index guarded).Runs calls state) :
    state.world.Good pageSize := by
  refine System.Runs.invariant (fun _ state => state.world.Good pageSize) ?_ ?_ run
  · rintro state rfl
    exact World.empty_good pageSize
  · intro calls state call after good step
    exact good_step small large holds good step

end

/-! ## Inside a transaction -/

/-- What the calls inside a transaction leave alone: what is committed on the temporary
side, the root of the durable handle and every page there was. -/
structure Carries (index : Nat) (start state : TempTableRouter) : Prop where
  entries : state.temp.entries.committed = start.temp.entries.committed
  commits : state.temp.commits = start.temp.commits
  root : (state.world.handle index).root = (start.world.handle index).root
  next_le : start.world.shared.next ≤ state.world.shared.next
  area : ∀ id < start.world.shared.next, state.world.shared.area id = start.world.shared.area id

theorem Carries.refl (index : Nat) (start : TempTableRouter) : Carries index start start :=
  ⟨rfl, rfl, rfl, le_rfl, fun _ _ => rfl⟩

theorem Carries.trans {middle : TempTableRouter} (first : Carries index start middle)
    (second : Carries index middle state) : Carries index start state where
  entries := second.entries.trans first.entries
  commits := second.commits.trans first.commits
  root := second.root.trans first.root
  next_le := first.next_le.trans second.next_le
  area id old := (second.area id (old.trans_le first.next_le)).trans (first.area id old)

section

variable (small : 128 ≤ pageSize) (large : pageSize < 2 ^ 16)

include small large

theorem carries_step (good : state.world.Good pageSize) {call : RouterCall} (inside : call.Inside)
    (step : state.Step pageSize formatVersion index guarded call after) :
    Carries index state after := by
  cases call with
  | write write =>
    simp only [Step] at step
    split at step
    · subst step
      exact ⟨rfl, rfl, rfl, le_rfl, fun _ _ => rfl⟩
    · obtain ⟨world, moves, rfl⟩ := step
      obtain ⟨nextLe, older⟩ := moves.older_pages small large good
      exact ⟨rfl, rfl, moves.root_of_write (treeCall_write write), nextLe, older⟩
  | setTempTable table temporary =>
    obtain rfl : after = _ := step
    exact ⟨rfl, rfl, rfl, le_rfl, fun _ _ => rfl⟩
  | beginTxn =>
    obtain ⟨world, moves, rfl⟩ := step
    obtain ⟨nextLe, older⟩ := moves.older_pages small large good
    exact ⟨rfl, rfl, moves.root_of_write (.inl rfl), nextLe, older⟩
  | other handle call =>
    obtain ⟨apart, world, moves, rfl⟩ := step
    obtain ⟨nextLe, older⟩ := moves.older_pages small large good
    exact ⟨rfl, rfl, congrArg CowBTree.root (moves.handle_other apart.symm), nextLe, older⟩
  | refresh | commit | conflict | fail failure | rollback => exact inside.elim

theorem carries_of_steps (holds : guarded) (good : start.world.Good pageSize)
    {calls : List RouterCall}
    (steps : (routing pageSize formatVersion index guarded).Steps start calls state)
    (inside : ∀ call ∈ calls, call.Inside) :
    state.world.Good pageSize ∧ Carries index start state := by
  induction steps with
  | refl => exact ⟨good, .refl index start⟩
  | step prior transition ih =>
    obtain ⟨goodHere, carried⟩ := ih fun call member => inside call (by simp [member])
    have isInside := inside _ (List.mem_append_right _ (List.mem_singleton_self _))
    exact ⟨good_step small large holds goodHere transition,
      carried.trans (carries_step small large goodHere isInside transition)⟩

end

theorem Carries.rollback (carried : Carries index start state) (settled : start.temp.Settled) :
    state.temp.rollback = start.temp := by
  have entries := Buffered.rollback_eq settled carried.entries
  rw [MemStorage.rollback, entries, carried.commits]

theorem rollback_settled {temp : MemStorage} (settled : temp.Settled) : temp.rollback = temp := by
  rw [MemStorage.rollback, Buffered.rollback_eq settled rfl]

theorem rollback_step (step : state.Step pageSize formatVersion index guarded .rollback after)
    (settled : state.temp.Settled) :
    after.temp = state.temp ∧ after.world.shared = state.world.shared ∧
      (after.world.handle index).root = (state.world.handle index).root ∧
      (after.world.handle index).hasPending = false := by
  obtain ⟨world, moves, rfl⟩ := step
  obtain rfl : world = _ := moves
  refine ⟨rollback_settled settled, rfl, ?_, ?_⟩
  · simp [World.set, CowBTree.rollback]
  · simp [World.set, CowBTree.rollback]

/-! ## The end of a transaction -/

/-- How the transaction that began at `start` and is at `state` can end, with `before` what
the durable side showed when it began and `current` what is committed on the device. -/
structure AllOrNothing (pageSize formatVersion index : Nat) (start state : TempTableRouter)
    (before current : Bytes -> Option Bytes) : Prop where
  /-- The temporary side shows what the transaction wrote, and so does the device, unless
  no durable transaction was open. -/
  committed : ∀ after, state.Step pageSize formatVersion index True .commit after ->
    after.temp.Settled ∧ (∀ key, after.temp.entries.get key = state.temp.entries.get key) ∧
      (((state.world.handle index).hasPending = false ∧ after.world.shared = state.world.shared) ∨
        ∀ key, after.committed pageSize key =
          .ok (overlaid ((state.world.handle index).pendingOps[·]?) current key))
  /-- The temporary side is as it was, the device too, and the handle shows the device. -/
  conflicted : ∀ conflicted after,
    state.Step pageSize formatVersion index True .conflict conflicted ->
      conflicted.Step pageSize formatVersion index True .rollback after ->
      after.temp = start.temp ∧ after.Quiet index ∧ after.world.shared = state.world.shared ∧
        ∀ key, after.shown pageSize index key = .ok (current key)
  /-- The temporary side is as it was. Unless a cohort was taken, the handle shows what it
  showed or what is committed; unless the records were being appended, that is unchanged. -/
  failed : ∀ guarded failure failed after,
    state.Step pageSize formatVersion index guarded (.fail failure) failed ->
      failed.Step pageSize formatVersion index guarded .rollback after ->
      after.temp = start.temp ∧ after.Quiet index ∧
        (guarded ->
          ((∀ key, after.shown pageSize index key = .ok (before key)) ∨
            ∀ key, after.shown pageSize index key = .ok (current key)) ∧
          (failure ≠ .afterCohort -> ∀ key, after.committed pageSize key = .ok (current key)))

section Ends

variable {before current : Bytes -> Option Bytes}

section

variable (small : 128 ≤ pageSize) (large : pageSize < 2 ^ 16) (good : state.world.Good pageSize)
    (roots : Roots pageSize (Pages.ofArea pageSize state.world.shared.area) state.world.shared.next
      state.world.shared.root current)

include small large good roots

theorem ends_committed (step : state.Step pageSize formatVersion index guarded .commit after) :
    after.temp.Settled ∧ (∀ key, after.temp.entries.get key = state.temp.entries.get key) ∧
      (((state.world.handle index).hasPending = false ∧ after.world.shared = state.world.shared) ∨
        ∀ key, after.committed pageSize key =
          .ok (overlaid ((state.world.handle index).pendingOps[·]?) current key)) := by
  obtain ⟨world, ⟨tree, shared, done, room, rfl⟩, rfl⟩ := step
  refine ⟨Buffered.pending_commit, Buffered.get_commit, ?_⟩
  by_cases pending : (state.world.handle index).hasPending = true
  · rcases Shared.commit_cases small large good.positive roots (good.handles index) pending done
      room with ⟨error, isFailed, -⟩ | ⟨isConflict, -⟩ | ⟨-, -, -, newRoots, -⟩
    · cases isFailed
    · cases isConflict
    · exact .inr fun key => newRoots.getAt_eq small key
  · rw [Shared.commit, if_neg pending] at done
    cases done
    exact .inl ⟨by simpa using pending, rfl⟩

theorem ends_conflicted (carried : Carries index start state) (settled : start.temp.Settled)
    {conflicted : TempTableRouter}
    (step : state.Step pageSize formatVersion index guarded .conflict conflicted)
    (rolled : conflicted.Step pageSize formatVersion index guarded .rollback after) :
    after.temp = start.temp ∧ after.Quiet index ∧ after.world.shared = state.world.shared ∧
      ∀ key, after.shown pageSize index key = .ok (current key) := by
  obtain ⟨world, ⟨tree, shared, done, room, rfl⟩, rfl⟩ := step
  obtain ⟨temp, device, root, closed⟩ := rollback_step rolled rfl
  have isTemp : after.temp = start.temp := temp.trans (carried.rollback settled)
  have pending : (state.world.handle index).hasPending = true := by
    by_contra closed
    rw [Shared.commit, if_neg closed] at done
    cases done
  rcases Shared.commit_cases small large good.positive roots (good.handles index) pending done room
    with ⟨error, isFailed, -⟩ | ⟨-, rfl, rfl, -⟩ | ⟨isCommitted, -⟩
  · cases isFailed
  · refine ⟨isTemp, ⟨closed, isTemp ▸ settled⟩, device, fun key => ?_⟩
    have isRoot : (after.world.handle index).root = state.world.shared.root := by
      rw [root]
      simp [World.set, CowBTree.resetTo]
    rw [shown, device, isRoot]
    exact roots.getAt_eq small key
  · cases isCommitted

end

theorem ends_failed (small : 128 ≤ pageSize) (large : pageSize < 2 ^ 16)
    (good : state.world.Good pageSize)
    (wasRoots : Roots pageSize (Pages.ofArea pageSize state.world.shared.area)
      state.world.shared.next (start.world.handle index).root before)
    (roots : Roots pageSize (Pages.ofArea pageSize state.world.shared.area)
      state.world.shared.next state.world.shared.root current)
    (carried : Carries index start state) (settled : start.temp.Settled)
    {failure : Failure} {failed : TempTableRouter}
    (step : state.Step pageSize formatVersion index guarded (.fail failure) failed)
    (rolled : failed.Step pageSize formatVersion index guarded .rollback after) :
    after.temp = start.temp ∧ after.Quiet index ∧ (guarded ->
        ((∀ key, after.shown pageSize index key = .ok (before key)) ∨
          ∀ key, after.shown pageSize index key = .ok (current key)) ∧
        (failure ≠ .afterCohort -> ∀ key, after.committed pageSize key = .ok (current key))) := by
  obtain ⟨world, ⟨device, isShared, members, left, shared, pending, fails, takesNone, room, rfl⟩,
    rfl⟩ := step
  obtain ⟨temp, isDevice, root, closed⟩ := rollback_step rolled rfl
  have isTemp : after.temp = start.temp := temp.trans (carried.rollback settled)
  refine ⟨isTemp, ⟨closed, isTemp ▸ settled⟩, fun holds => ?_⟩
  have leaves := fails.leaves small large good isShared pending (takesNone holds) room
  have isLeft : (after.world.handle index).root = left.root := by
    rw [root]
    simp [World.set]
  -- An older root still stands for what it stood for, in the pages the failure left.
  have stillReads : ∀ {other : Nat} {contents : Bytes -> Option Bytes},
      Roots pageSize (Pages.ofArea pageSize state.world.shared.area) state.world.shared.next other
        contents -> ∀ key, shared.getAt pageSize other key = .ok (contents key) := by
    intro other contents otherRoots key
    exact ((otherRoots.frame leaves.area).mono leaves.next_le).getAt_eq small key
  constructor
  · rcases leaves.root with own | now
    · refine .inl fun key => ?_
      rw [shown, isDevice, isLeft, own, carried.root]
      exact stillReads wasRoots key
    · refine .inr fun key => ?_
      rw [shown, isDevice, isLeft, now]
      exact stillReads roots key
  · intro before key
    rw [TempTableRouter.committed, isDevice, leaves.committed before]
    exact stillReads roots key

end Ends

end TempTableRouter

/-- **A commit over both sides.** However a transaction over temporary and durable tables
ends, the temporary side is committed exactly when the durable commit reports success, and
otherwise neither side shows what it wrote. -/
theorem commit_all_or_nothing {pageSize formatVersion index : Nat} (small : 128 ≤ pageSize)
    (large : pageSize < 2 ^ 16) {calls inside : List RouterCall} {start state : TempTableRouter}
    (run : (routing pageSize formatVersion index True).Runs calls start)
    (quiet : start.Quiet index)
    (steps : (routing pageSize formatVersion index True).Steps start inside state)
    (isInside : ∀ call ∈ inside, call.Inside) :
    ∃ before current : Bytes -> Option Bytes,
      (∀ key, start.shown pageSize index key = .ok (before key)) ∧
      (∀ key, state.committed pageSize key = .ok (current key)) ∧
      TempTableRouter.AllOrNothing pageSize formatVersion index start state before current := by
  have goodStart := TempTableRouter.good_of_routing small large trivial run
  obtain ⟨good, carried⟩ :=
    TempTableRouter.carries_of_steps small large trivial goodStart steps isInside
  obtain ⟨before, wasRoots⟩ := (goodStart.handles index).root
  obtain ⟨current, roots⟩ := good.current
  have wasStill := (wasRoots.frame carried.area).mono carried.next_le
  refine ⟨before, current, fun key => wasRoots.getAt_eq small key,
    fun key => roots.getAt_eq small key, ?_, ?_, ?_⟩
  · intro after step
    exact TempTableRouter.ends_committed small large good roots step
  · intro conflicted after step rolled
    exact TempTableRouter.ends_conflicted small large good roots carried quiet.temporary step rolled
  · intro guarded failure failed after step rolled
    exact TempTableRouter.ends_failed small large good wasStill roots carried quiet.temporary step
      rolled

/-! ## One transaction, ended in three ways -/

namespace TempTableRouter

/-- A temporary table was marked, and nothing else happened. -/
def marked : TempTableRouter := (new 128).setTempTable "t" true

/-- A row of each side was written. -/
def written : TempTableRouter :=
  { marked with
    world := marked.world.call 128 6 (0, StorageWrite.treeCall (.putRow "d" 1 [2]))
    temp := marked.temp.write (.putRow "t" 1 [7]) }

/-- Another handle committed a row under the same key. -/
def overtaken : TempTableRouter :=
  { written with
    world := (written.world.call 128 6 (1, .put (rowKey "d" 1) [3])).call 128 6 (1, .commit) }

theorem marked_runs : (routing 128 6 0 True).Runs [.setTempTable "t" true] marked := by
  have none : (routing 128 6 0 True).Steps (new 128) [] (new 128) := .refl
  exact ⟨_, rfl, .step none rfl⟩

theorem marked_quiet : marked.Quiet 0 := ⟨rfl, rfl⟩

theorem written_steps : (routing 128 6 0 True).Steps marked
    [.write (.putRow "t" 1 [7]), .write (.putRow "d" 1 [2])] written := by
  have isTemp : marked.routed (.putRow "t" 1 [7]) = true := by decide +kernel
  have isDurable : routed { marked with temp := marked.temp.write (.putRow "t" 1 [7]) }
      (.putRow "d" 1 [2]) = false := by decide +kernel
  have temporary : marked.Step 128 6 0 True (.write (.putRow "t" 1 [7]))
      { marked with temp := marked.temp.write (.putRow "t" 1 [7]) } := by
    rw [Step, if_pos isTemp]
  have durable : Step 128 6 0 True { marked with temp := marked.temp.write (.putRow "t" 1 [7]) }
      (.write (.putRow "d" 1 [2])) written := by
    rw [Step, if_neg (Bool.eq_false_iff.mp isDurable)]
    exact ⟨_, World.call_step (by rintro _ _ ⟨⟩; decide) (by decide +kernel), rfl⟩
  exact .step (.step .refl temporary) durable

theorem overtaken_steps : (routing 128 6 0 True).Steps marked
    [.write (.putRow "t" 1 [7]), .write (.putRow "d" 1 [2]), .other 1 (.put (rowKey "d" 1) [3]),
      .other 1 .commit] overtaken := by
  have put : (routing 128 6 0 True).Step written (.other 1 (.put (rowKey "d" 1) [3]))
      { written with world := written.world.call 128 6 (1, .put (rowKey "d" 1) [3]) } :=
    ⟨by decide, _, World.call_step (by rintro _ _ ⟨⟩; decide) (by decide +kernel), rfl⟩
  have commit : (routing 128 6 0 True).Step
      { written with world := written.world.call 128 6 (1, .put (rowKey "d" 1) [3]) }
      (.other 1 .commit) overtaken :=
    ⟨by decide, _, World.call_step (by simp) (by decide +kernel), rfl⟩
  exact .step (.step written_steps put) commit

end TempTableRouter

open TempTableRouter in
/-- Both rows are there after a commit that succeeds. -/
theorem commit_of_both_sides : ∃ after, written.Step 128 6 0 True .commit after ∧
      after.temp.entries.get (.row (lower "t") 1) = some [7] ∧
      after.committed 128 (rowKey "d" 1) = .ok (some [2]) := by
  have isCommitted : (written.world.shared.commit 6 (written.world.handle 0)).1 = .committed := by
    decide +kernel
  have room : (written.world.shared.commit 6 (written.world.handle 0)).2.2.next ≤ 2 ^ 64 := by
    decide +kernel
  have isPending : (written.world.handle 0).hasPending = true := by decide +kernel
  have unversioned : (written.world.handle 0).pendingOps[writeVersionMeta]? = none := by
    decide +kernel
  have row : (written.world.handle 0).pendingOps[rowKey "d" 1]? = some (some [2]) := by
    decide +kernel
  have apart : rowKey "d" 1 ≠ nextRowIdMeta ∧ rowKey "d" 1 ≠ cdcFloorMeta := by decide +kernel
  have temporary : written.temp.entries.get (.row (lower "t") 1) = some [7] := by decide +kernel
  generalize done : written.world.shared.commit 6 (written.world.handle 0) = result
    at isCommitted room
  obtain ⟨outcome, tree, shared⟩ := result
  obtain rfl : outcome = .committed := isCommitted
  have step : written.Step 128 6 0 True .commit { written with
        world := { written.world.set 0 tree with shared }, temp := written.temp.commit } :=
    ⟨_, ⟨tree, shared, done, room, rfl⟩, rfl⟩
  obtain ⟨before, current, -, -, ends⟩ := commit_all_or_nothing (by decide) (by decide) marked_runs
    marked_quiet written_steps (by simp [RouterCall.Inside])
  obtain ⟨-, reads, closed | durable⟩ := ends.committed _ step
  · rw [isPending] at closed
    cases closed.1
  · refine ⟨_, step, (reads _).trans temporary, ?_⟩
    rw [durable, overlaid, rebasedOps]
    simp only [unversioned]
    rw [maxedOps_other apart.1 apart.2, row]
    rfl

open TempTableRouter in
/-- After a conflict the durable side shows the row another handle committed, not what it
showed before. After a commit that failed at its sync the device may hold the durable row
although the temporary one is gone. -/
theorem sides_after_failed_commit :
    ((routing 128 6 0 True).Runs [.setTempTable "t" true] marked ∧ marked.Quiet 0) ∧
    (∃ inside conflicted after, (routing 128 6 0 True).Steps marked inside overtaken ∧
      (∀ call ∈ inside, call.Inside) ∧ overtaken.Step 128 6 0 True .conflict conflicted ∧
      conflicted.Step 128 6 0 True .rollback after ∧
      marked.shown 128 0 (rowKey "d" 1) = .ok none ∧
      after.shown 128 0 (rowKey "d" 1) = .ok (some [3])) ∧
    ∃ inside failed after, (routing 128 6 0 True).Steps marked inside written ∧
      (∀ call ∈ inside, call.Inside) ∧ written.Step 128 6 0 True (.fail .afterCohort) failed ∧
      failed.Step 128 6 0 True .rollback after ∧
      after.committed 128 (rowKey "d" 1) = .ok (some [2]) ∧
      after.temp.entries.get (.row (lower "t") 1) = none := by
  refine ⟨⟨marked_runs, marked_quiet⟩, ?_, ?_⟩
  · have isConflict : (overtaken.world.shared.commit 6 (overtaken.world.handle 0)).1 =
        .conflict := by decide +kernel
    have room : (overtaken.world.shared.commit 6 (overtaken.world.handle 0)).2.2.next ≤ 2 ^ 64 := by
      decide +kernel
    have read : (overtaken.world.shared.commit 6 (overtaken.world.handle 0)).2.2.getAt 128
        (overtaken.world.shared.commit 6 (overtaken.world.handle 0)).2.1.root (rowKey "d" 1) =
          .ok (some [3]) := by decide +kernel
    generalize done : overtaken.world.shared.commit 6 (overtaken.world.handle 0) = result
      at isConflict room read
    obtain ⟨outcome, tree, shared⟩ := result
    obtain rfl : outcome = .conflict := isConflict
    refine ⟨_, _, _, overtaken_steps, by simp [RouterCall.Inside],
      ⟨_, ⟨tree, shared, done, room, rfl⟩, rfl⟩, ⟨_, rfl, rfl⟩, by decide +kernel, ?_⟩
    rw [<- read]
    simp [shown, World.set, CowBTree.rollback]
  · let world := written.world
    let device : RegionLog := ⟨world.shared, 256, 33024, [], ⟨0, 1, 0⟩⟩
    have isSome : ((world.handle 0).prepareCommit (Pages.ofArea 128 world.shared.area) 6
        world.shared.root world.shared.next world.shared.seq).toOption.join.isSome = true := by
      decide +kernel
    have isPending : (world.handle 0).hasPending = true := by decide +kernel
    have room : (world.shared.commit 6 (world.handle 0)).2.2.next ≤ 2 ^ 64 := by decide +kernel
    have read : (world.shared.commit 6 (world.handle 0)).2.2.getAt 128
        (world.shared.commit 6 (world.handle 0)).2.2.root (rowKey "d" 1) = .ok (some [2]) := by
      decide +kernel
    have gone : written.temp.rollback.rollback.entries.get (.row (lower "t") 1) = none := by
      decide +kernel
    rw [Shared.commit, if_pos isPending] at room read
    cases prepared : (world.handle 0).prepareCommit (Pages.ofArea 128 world.shared.area) 6
        world.shared.root world.shared.next world.shared.seq with
    | error failure =>
      rw [prepared] at isSome
      cases isSome
    | ok result =>
      cases result with
      | none =>
        rw [prepared] at isSome
        cases isSome
      | some result =>
        obtain ⟨ready, record⟩ := result
        have size : (world.handle 0).pageSize = 128 := by decide +kernel
        rw [size, prepared] at room read
        have fails : CommitFails 6 device (world.handle 0) [] .afterCohort { ready with dirty := ∅ }
            ⟨ready.writeDirtyPages world.shared.area, record.root, record.next, record.seq⟩ :=
          .afterCohort (size.symm ▸ prepared) rfl ⟨rfl, rfl, rfl, rfl, rfl⟩ (.inr rfl)
        exact ⟨_, _, _, written_steps, by simp [RouterCall.Inside], ⟨_, ⟨device, rfl, [], _, _,
          isPending, fails, fun _ _ _ _ => trivial, room, rfl⟩, rfl⟩, ⟨_, rfl, rfl⟩, read, gone⟩

end InlaySql.Sql
