import InlaySql.Btree.Writers

/-!
# Histories of committed transactions

A commit leaves the pages of earlier roots alone, so a root keeps its contents whatever is
called after it. What is committed is the overlay of the committed transactions in the order
of their commits, and the change log of the metadata follows from that order.
-/

namespace InlaySql.Btree

open Lib Wal

section Device

variable {pageSize formatVersion : Nat} {world after : World}

/-- Only a commit touches the device. -/
theorem World.step_shared {index : Nat} {call : Call} (other : call ≠ .commit)
    (step : world.Step pageSize formatVersion (index, call) after) :
    after.shared = world.shared := by
  cases call with
  | openHandle | beginTxn | rollback =>
    obtain rfl : after = _ := step
    rfl
  | put key value =>
    obtain ⟨-, tree, rfl, -⟩ := step
    rfl
  | delete key =>
    obtain ⟨tree, rfl, -⟩ := step
    rfl
  | refresh => rcases step with rfl | rfl <;> rfl
  | commit => exact absurd rfl other

/-- The operations a call commits. -/
def World.committedBy (formatVersion : Nat) (world : World) : Nat × Call -> List PendingOps
  | (index, .commit) =>
    if (world.handle index).hasPending ∧
        (world.shared.commit formatVersion (world.handle index)).1 = .committed then
      [(world.handle index).pendingOps]
    else []
  | _ => []

/-- The contents after some transactions, each overlaid on what was there. -/
def replayed (contents : Bytes → Option Bytes) (commits : List PendingOps) : Bytes → Option Bytes :=
  commits.foldl (fun contents ops => overlaid (ops[·]?) contents) contents

/-- What a call does to the device: pages below the counter stay, and the committed contents
become those under the operations it commits. -/
theorem World.Good.step_shared (small : 128 ≤ pageSize) (large : pageSize < 2 ^ 16)
    (good : world.Good pageSize) {event : Nat × Call}
    (step : world.Step pageSize formatVersion event after) :
    world.shared.next ≤ after.shared.next ∧
      (∀ id < world.shared.next, after.shared.area id = world.shared.area id) ∧
      ∀ contents, Roots pageSize (Pages.ofArea pageSize world.shared.area) world.shared.next
          world.shared.root contents ->
        Roots pageSize (Pages.ofArea pageSize after.shared.area) after.shared.next
          after.shared.root (replayed contents (world.committedBy formatVersion event)) := by
  obtain ⟨index, call⟩ := event
  by_cases isCommit : call = .commit
  · subst isCommit
    obtain ⟨outcome, tree, shared, done, rfl, room⟩ := step
    simp only [committedBy, done]
    by_cases pending : (world.handle index).hasPending = true
    · obtain ⟨current, roots⟩ := good.current
      have cases (contents) (isRoot : Roots pageSize (Pages.ofArea pageSize world.shared.area)
          world.shared.next world.shared.root contents) := Shared.commit_cases small large
        good.positive isRoot (good.handles index) pending done room
      rcases cases current roots with ⟨error, rfl, rfl, -⟩ | ⟨rfl, rfl, -⟩ | ⟨rfl, nextLe, same, -⟩
      · exact ⟨le_rfl, fun _ _ => rfl, fun _ isRoot => by simpa [replayed] using isRoot⟩
      · exact ⟨le_rfl, fun _ _ => rfl, fun _ isRoot => by simpa [replayed] using isRoot⟩
      · refine ⟨nextLe, same, fun contents isRoot => ?_⟩
        rcases cases contents isRoot with ⟨_, isFailed, -⟩ | ⟨isConflict, -⟩ | ⟨-, -, -, now, -⟩
        · cases isFailed
        · cases isConflict
        · simpa [replayed, pending] using now
    · rw [Shared.commit, if_neg pending] at done
      cases done
      exact ⟨le_rfl, fun _ _ => rfl, fun _ isRoot => by simpa [replayed, pending] using isRoot⟩
  · rw [World.step_shared isCommit step]
    refine ⟨le_rfl, fun _ _ => rfl, fun _ isRoot => ?_⟩
    cases call <;> first | exact absurd rfl isCommit | exact isRoot

end Device

section Runs

variable {pageSize formatVersion : Nat} {events more : List (Nat × Call)} {world after : World}

/-- Later calls leave the pages below the counter alone. -/
theorem World.Good.steps_area (small : 128 ≤ pageSize) (large : pageSize < 2 ^ 16)
    (good : world.Good pageSize) (steps : (writers pageSize formatVersion).Steps world more after) :
    after.Good pageSize ∧ world.shared.next ≤ after.shared.next ∧
      ∀ id < world.shared.next, after.shared.area id = world.shared.area id := by
  induction steps with
  | refl => exact ⟨good, le_rfl, fun _ _ => rfl⟩
  | step _ transition ih =>
    obtain ⟨nowGood, grown, same⟩ := ih
    obtain ⟨nextLe, unchanged, -⟩ := nowGood.step_shared small large transition
    exact ⟨nowGood.step small large transition, grown.trans nextLe,
      fun id old => (unchanged id (old.trans_le grown)).trans (same id old)⟩

/-- A root that is committed, or that a handle reads from, keeps its contents through any
later calls of any handles. -/
theorem snapshots_stay (small : 128 ≤ pageSize) (large : pageSize ≤ 65535)
    (run : (writers pageSize formatVersion).Runs events world)
    (steps : (writers pageSize formatVersion).Steps world more after) {root : Nat}
    (isRoot : root = world.shared.root ∨ ∃ index, root = (world.handle index).root) :
    ∃ contents : Bytes -> Option Bytes, ∀ key,
      world.shared.getAt pageSize root key = .ok (contents key) ∧
        after.shared.getAt pageSize root key = .ok (contents key) := by
  have good := World.good_of_runs small (by omega) run
  obtain ⟨-, grown, same⟩ := good.steps_area small (by omega) steps
  obtain ⟨contents, roots⟩ : ∃ contents, Roots pageSize
      (Pages.ofArea pageSize world.shared.area) world.shared.next root contents := by
    rcases isRoot with rfl | ⟨index, rfl⟩
    · exact good.current
    · exact (good.handles index).root
  exact ⟨contents, fun key =>
    ⟨roots.getAt_eq small key, ((roots.frame same).mono grown).getAt_eq small key⟩⟩

/-- A root read by one handle outlives a commit of another. -/
theorem snapshot_outlives_commit : ∃ world after,
    (writers 128 6).Runs [(0, .put [1] [2]), (0, .commit)] world ∧
      (writers 128 6).Steps world [(1, .openHandle), (1, .put [1] [3]), (1, .commit)] after ∧
      after.shared.getAt 128 after.shared.root [1] = .ok (some [3]) ∧
      after.shared.getAt 128 world.shared.root [1] = .ok (some [2]) := by
  let events : List (Nat × Call) := [(0, .put [1] [2]), (0, .commit)]
  let later : List (Nat × Call) := [(1, .openHandle), (1, .put [1] [3]), (1, .commit)]
  let world := events.foldl (World.call 128 6) (.empty 128)
  let after := later.foldl (World.call 128 6) world
  have run : (writers 128 6).Runs events world := runs_calls (by decide +kernel)
  have steps : (writers 128 6).Steps world later after :=
    steps_calls .refl (by decide +kernel)
  have now : after.shared.getAt 128 after.shared.root [1] = .ok (some [3]) := by decide +kernel
  have was : world.shared.getAt 128 world.shared.root [1] = .ok (some [2]) := by decide +kernel
  obtain ⟨contents, same⟩ := snapshots_stay (by decide) (by decide) run steps (.inl rfl)
  obtain ⟨before, later⟩ := same [1]
  exact ⟨world, after, run, steps, now, later.trans (before.symm.trans was)⟩

/-- A run with the operations of its committed transactions, oldest first. -/
inductive History (pageSize formatVersion : Nat) :
    List (Nat × Call) -> World -> List PendingOps -> Prop where
  | start : History pageSize formatVersion [] (World.empty pageSize) []
  | step {events world commits event after}
      (prior : History pageSize formatVersion events world commits)
      (transition : world.Step pageSize formatVersion event after) :
      History pageSize formatVersion (events ++ [event]) after
        (commits ++ world.committedBy formatVersion event)

variable {commits : List PendingOps}

theorem replayed_append (contents : Bytes -> Option Bytes) (commits later : List PendingOps) :
    replayed contents (commits ++ later) = replayed (replayed contents commits) later :=
  List.foldl_append

theorem History.roots (small : 128 ≤ pageSize) (large : pageSize < 2 ^ 16)
    (history : History pageSize formatVersion events world commits) :
    world.Good pageSize ∧ Roots pageSize (Pages.ofArea pageSize world.shared.area)
      world.shared.next world.shared.root (replayed (fun _ => none) commits) := by
  induction history with
  | start => exact ⟨World.empty_good pageSize, .empty _ _ _⟩
  | step _ transition ih =>
    obtain ⟨good, roots⟩ := ih
    obtain ⟨-, -, becomes⟩ := good.step_shared small large transition
    exact ⟨good.step small large transition, replayed_append .. ▸ becomes _ roots⟩

/-- Every run has a history. -/
theorem exists_history (run : (writers pageSize formatVersion).Runs events world) :
    ∃ commits, History pageSize formatVersion events world commits := by
  refine System.Runs.invariant
    (fun events world => ∃ commits, History pageSize formatVersion events world commits) ?_ ?_ run
  · rintro world rfl
    exact ⟨[], .start⟩
  · rintro events world event after ⟨commits, history⟩ transition
    exact ⟨_, history.step transition⟩

/-- In every run the committed contents are those of the committed transactions done one
after the other, in the order of their commits, whatever the handles did in between. -/
theorem commits_are_serial (small : 128 ≤ pageSize) (large : pageSize ≤ 65535)
    (run : (writers pageSize formatVersion).Runs events world) :
    ∃ commits, History pageSize formatVersion events world commits ∧ ∀ key,
      world.shared.getAt pageSize world.shared.root key =
        .ok (replayed (fun _ => none) commits key) := by
  obtain ⟨commits, history⟩ := exists_history run
  exact ⟨commits, history, fun key =>
    (history.roots small (by omega)).2.getAt_eq small key⟩

/-- Two handles write beside each other; the second commit keeps what the first left. -/
theorem one_commit_is_serial : ∃ world commits, History 128 6
    [(0, .put [1] [2]), (1, .put [3] [4]), (0, .commit), (1, .commit)] world commits ∧
      world.shared.getAt 128 world.shared.root [1] = .ok (some [2]) ∧
      replayed (fun _ => none) commits [1] = some [2] ∧
      replayed (fun _ => none) commits [3] = some [4] := by
  let events : List (Nat × Call) :=
    [(0, .put [1] [2]), (1, .put [3] [4]), (0, .commit), (1, .commit)]
  let world := events.foldl (World.call 128 6) (.empty 128)
  have run : (writers 128 6).Runs events world := runs_calls (by decide +kernel)
  have first : world.shared.getAt 128 world.shared.root [1] = .ok (some [2]) := by decide +kernel
  have second : world.shared.getAt 128 world.shared.root [3] = .ok (some [4]) := by decide +kernel
  obtain ⟨commits, history, same⟩ := commits_are_serial (by decide) (by decide) run
  exact ⟨world, commits, history, first, Except.ok.inj ((same [1]).symm.trans first),
    Except.ok.inj ((same [3]).symm.trans second)⟩

end Runs

end InlaySql.Btree
