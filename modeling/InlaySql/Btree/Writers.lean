import InlaySql.Btree.Commit
import InlaySql.Lib.Transition

/-!
# Several writers on one device

Every handle keeps the root it started from and its own transaction; the device
keeps the data area and the committed state a commit finds under the gate. A commit
overlays its operations on that state, whatever was committed since the handle's
own root was read.
-/

namespace InlaySql.Btree

open Lib Wal

/-- What the handles of one device share: the data area and the committed state. -/
structure Shared where
  area : Nat -> Bytes
  root : Nat
  next : Nat
  seq : Nat

/-- A device and the handles open on it. -/
structure World where
  shared : Shared
  handle : Nat -> CowBTree

/-- What a commit answers. -/
inductive CommitOutcome where
  | committed
  | conflict
  | failed (error : Error)
  deriving DecidableEq, Repr

/-- The calls on a handle. -/
inductive Call where
  | openHandle
  | beginTxn
  | put (key value : Bytes)
  | delete (key : Bytes)
  | rollback
  | refresh
  | commit
  deriving DecidableEq, Repr

namespace Shared

/-- A formatted device. -/
def empty : Shared := ⟨fun _ => [], 0, 1, 0⟩

/-- A handle just opened. -/
def opened (pageSize : Nat) (shared : Shared) : CowBTree :=
  (CowBTree.empty pageSize).resetTo shared.root shared.next

/-- The tree under a root of the device. -/
def getAt (pageSize : Nat) (shared : Shared) (root : Nat) (key : Bytes) :
    Except Error (Option Bytes) :=
  CowBTree.getAt pageSize (Pages.ofArea pageSize shared.area) shared.next root key

/-- `commit`: the outcome, the handle and the device after it. -/
def commit (formatVersion : Nat) (shared : Shared) (self : CowBTree) :
    CommitOutcome × CowBTree × Shared :=
  if self.hasPending then
    match self.prepareCommit (Pages.ofArea self.pageSize shared.area) formatVersion shared.root
      shared.next shared.seq with
    | .error (error, left) => (.failed error, left, shared)
    | .ok none => (.conflict, self.resetTo shared.root shared.next, shared)
    | .ok (some (ready, record)) =>
      (.committed, ready.settled,
        { area := ready.writeDirtyPages shared.area
          root := record.root, next := record.next, seq := record.seq })
  else (.committed, self, shared)

end Shared

/-- `refresh` when the commit generation moved: adopt the committed root, unless a
transaction is open. -/
def CowBTree.refresh (self : CowBTree) (shared : Shared) : CowBTree :=
  if self.hasPending ∨ shared.root = self.root then self
  else { self with root := shared.root, nextPageId := max shared.next self.nextPageId }

/-- What a write may leave: its result, or, when it failed part-way, a handle that has
recorded no operation. -/
def CowBTree.Attempted (self : CowBTree) : Except Error CowBTree -> CowBTree -> Prop
  | .ok written, after => after = written
  | .error _, after => after.pageSize = self.pageSize ∧ after.root = self.root ∧
      after.nextPageId = self.nextPageId ∧ after.pendingOps = self.pendingOps

namespace World

/-- All handles freshly opened on a formatted device. -/
def empty (pageSize : Nat) : World := ⟨.empty, fun _ => .empty pageSize⟩

def set (world : World) (index : Nat) (tree : CowBTree) : World :=
  { world with handle := Function.update world.handle index tree }

/-- One call on one handle. No value put is longer than the log region: a longer one can still
commit, with its zero runs elided, and is then refused when it is read. -/
def Step (pageSize formatVersion : Nat) (world : World) : Nat × Call -> World -> Prop
  | (index, .openHandle), after => after = world.set index (world.shared.opened pageSize)
  | (index, .beginTxn), after => after = world.set index (world.handle index).beginTxn
  | (index, .put key value), after =>
    value.length ≤ maxRecordLen pageSize ∧ ∃ tree, after = world.set index tree ∧
      (world.handle index).Attempted ((world.handle index).put
        (Pages.ofArea pageSize world.shared.area) key value) tree
  | (index, .delete key), after =>
    ∃ tree, after = world.set index tree ∧ (world.handle index).Attempted
      ((world.handle index).delete (Pages.ofArea pageSize world.shared.area) key) tree
  | (index, .rollback), after => after = world.set index (world.handle index).rollback
  | (index, .refresh), after =>
    after = world ∨ after = world.set index ((world.handle index).refresh world.shared)
  | (index, .commit), after =>
    ∃ outcome tree shared,
      world.shared.commit formatVersion (world.handle index) = (outcome, tree, shared) ∧
        after = { world.set index tree with shared } ∧ shared.next ≤ 2 ^ 64

/-- One call on one handle; a write that fails leaves its handle alone. -/
def call (pageSize formatVersion : Nat) (world : World) : Nat × Call -> World
  | (index, .openHandle) => world.set index (world.shared.opened pageSize)
  | (index, .beginTxn) => world.set index (world.handle index).beginTxn
  | (index, .put key value) =>
    match (world.handle index).put (Pages.ofArea pageSize world.shared.area) key value with
    | .ok tree => world.set index tree
    | .error _ => world.set index (world.handle index)
  | (index, .delete key) =>
    match (world.handle index).delete (Pages.ofArea pageSize world.shared.area) key with
    | .ok tree => world.set index tree
    | .error _ => world.set index (world.handle index)
  | (index, .rollback) => world.set index (world.handle index).rollback
  | (index, .refresh) => world.set index ((world.handle index).refresh world.shared)
  | (index, .commit) =>
    let (_, tree, shared) := world.shared.commit formatVersion (world.handle index)
    { world.set index tree with shared }

end World

/-- Any calls on any handles, in any order, as long as page numbers are `u64`s and no value put
is longer than `maxRecordLen`. -/
def writers (pageSize formatVersion : Nat) : System World (Nat × Call) where
  Initial world := world = World.empty pageSize
  Step := World.Step pageSize formatVersion

/-! ## The invariant -/

/-- The committed root is well-formed and every handle is anchored in committed pages. -/
structure World.Good (pageSize : Nat) (world : World) : Prop where
  positive : 0 < world.shared.next
  room : world.shared.next ≤ 2 ^ 64
  current : ∃ contents, Roots pageSize (Pages.ofArea pageSize world.shared.area)
    world.shared.next world.shared.root contents
  handles : ∀ index, (world.handle index).Anchored pageSize
    (Pages.ofArea pageSize world.shared.area) world.shared.next

namespace CowBTree

variable {pageSize : Nat} {shared : Shared} {self after : CowBTree}

theorem Anchored.resetTo {pages : Pages} {next root : Nat} {contents : Bytes -> Option Bytes}
    (anchored : self.Anchored pageSize pages next) (roots : Roots pageSize pages next root contents) :
    (self.resetTo root next).Anchored pageSize pages next :=
  ⟨anchored.size, ⟨contents, roots⟩, max_le le_rfl anchored.next_le, .empty _⟩

section

variable {pages : Pages} {next : Nat} {key : Bytes} {op : Option Bytes}

theorem Anchored.wrote (anchored : self.Anchored pageSize pages next)
    (wrote : Wrote self after key op) (fits : OpFits pageSize (key, op)) :
    after.Anchored pageSize pages next := by
  obtain ⟨contents, roots⟩ := anchored.root
  refine ⟨wrote.pageSize.trans anchored.size, ⟨contents, wrote.root ▸ roots⟩,
    wrote.nextPageId ▸ anchored.next_le, ?_⟩
  rw [wrote.pendingOps]
  exact anchored.opsFit.insert fits

theorem Anchored.attempted {result : Except Error CowBTree}
    (anchored : self.Anchored pageSize pages next) (attempted : self.Attempted result after)
    (wrote : ∀ written, result = .ok written -> Wrote self written key op)
    (fits : ∀ written, result = .ok written -> OpFits pageSize (key, op)) :
    after.Anchored pageSize pages next := by
  cases result with
  | ok written =>
    obtain rfl : after = written := attempted
    exact anchored.wrote (wrote after rfl) (fits after rfl)
  | error error =>
    obtain ⟨size, root, nextPageId, ops⟩ := attempted
    obtain ⟨contents, roots⟩ := anchored.root
    exact ⟨size.trans anchored.size, ⟨contents, root ▸ roots⟩, nextPageId ▸ anchored.next_le,
      ops ▸ anchored.opsFit⟩

end

theorem Anchored.frame {area later : Nat -> Bytes} {next more : Nat}
    (anchored : self.Anchored pageSize (Pages.ofArea pageSize area) next)
    (same : ∀ id < next, later id = area id) (le : next ≤ more) :
    self.Anchored pageSize (Pages.ofArea pageSize later) more := by
  obtain ⟨contents, roots⟩ := anchored.root
  exact ⟨anchored.size, ⟨contents, (roots.frame same).mono le⟩, anchored.next_le.trans le,
    anchored.opsFit⟩

theorem put_fits {committed : Pages} {key value : Bytes}
    (done : self.put committed key value = .ok after) : keyFits self.pageSize key = true := by
  by_contra refused
  simp only [put, refused] at done
  cases done

theorem Prepared.area_eq {area : Nat -> Bytes} {start : Nat} {contents : Bytes -> Option Bytes}
    (prepared : Prepared pageSize area start contents self) {id : Nat} (old : id < start) :
    self.writeDirtyPages area id = area id := by
  unfold writeDirtyPages
  cases found : self.dirty[id]? with
  | none => rfl
  | some page =>
    obtain ⟨bytes, -, -, fresh, -⟩ := prepared.encoded id page found
    omega

end CowBTree

section Commit

variable {pageSize formatVersion : Nat} {shared : Shared} {self : CowBTree}
  {current : Bytes -> Option Bytes}

theorem Shared.commit_cases (small : 128 ≤ pageSize) (large : pageSize < 2 ^ 16)
    (positive : 0 < shared.next)
    (nowRoots : Roots pageSize (Pages.ofArea pageSize shared.area) shared.next shared.root current)
    (anchored : self.Anchored pageSize (Pages.ofArea pageSize shared.area) shared.next)
    (pending : self.hasPending = true) {outcome : CommitOutcome} {tree : CowBTree} {after : Shared}
    (done : shared.commit formatVersion self = (outcome, tree, after))
    (room : after.next ≤ 2 ^ 64) :
    (∃ error, outcome = .failed error ∧ after = shared ∧
      tree.Anchored pageSize (Pages.ofArea pageSize shared.area) shared.next ∧
      self.prepareCommit (Pages.ofArea pageSize shared.area) formatVersion shared.root shared.next
        shared.seq ≠ .ok none) ∨
    (outcome = .conflict ∧ after = shared ∧ tree = self.resetTo shared.root shared.next ∧
      self.prepareCommit (Pages.ofArea pageSize shared.area) formatVersion shared.root shared.next
        shared.seq = .ok none) ∨
    (outcome = .committed ∧ shared.next ≤ after.next ∧
      (∀ id < shared.next, after.area id = shared.area id) ∧
      Roots pageSize (Pages.ofArea pageSize after.area) after.next after.root
        (overlaid (self.pendingOps[·]?) current) ∧
      tree.Anchored pageSize (Pages.ofArea pageSize after.area) after.next ∧
      self.prepareCommit (Pages.ofArea pageSize shared.area) formatVersion shared.root shared.next
        shared.seq ≠ .ok none) := by
  obtain rfl := anchored.size
  have counter : max shared.next self.nextPageId = shared.next :=
    max_eq_left anchored.next_le
  rw [Shared.commit, if_pos pending] at done
  cases prepare : self.prepareCommit (Pages.ofArea self.pageSize shared.area) formatVersion
      shared.root shared.next shared.seq with
  | error failure =>
    rw [prepare] at done
    cases done
    exact .inl ⟨_, rfl, rfl, CowBTree.prepareCommit_error small anchored nowRoots prepare, by simp⟩
  | ok result =>
    rw [prepare] at done
    cases result with
    | none =>
      cases done
      exact .inr (.inl ⟨rfl, rfl, rfl, rfl⟩)
    | some written =>
      obtain ⟨ready, record⟩ := written
      cases done
      obtain ⟨rfl, -⟩ := CowBTree.prepareCommit_record prepare
      have prepared := CowBTree.prepareCommit_some small large positive nowRoots
        anchored.opsFit prepare room
      rw [counter] at prepared
      refine .inr (.inr ⟨rfl, prepared.next_le, fun id old => prepared.area_eq old,
        prepared.roots, ?_, by simp⟩)
      exact ⟨prepared.size, ⟨_, prepared.roots⟩, le_rfl, .empty _⟩

end Commit

namespace World

variable {pageSize formatVersion : Nat} {world after : World}

theorem empty_good (pageSize : Nat) : (World.empty pageSize).Good pageSize := by
  refine ⟨Nat.one_pos, ?_, ⟨_, .empty _ _ _⟩, fun index => ⟨rfl, ⟨_, .empty _ _ _⟩, le_rfl, ?_⟩⟩
  · change 1 ≤ 2 ^ 64
    omega
  · exact .empty _

theorem Good.set (good : world.Good pageSize) {index : Nat} {tree : CowBTree}
    (anchored : tree.Anchored pageSize (Pages.ofArea pageSize world.shared.area)
      world.shared.next) : (world.set index tree).Good pageSize := by
  refine ⟨good.positive, good.room, good.current, fun other => ?_⟩
  by_cases same : other = index
  · subst same
    simpa [World.set] using anchored
  · simpa [World.set, same] using good.handles other

section

variable (small : 128 ≤ pageSize) (large : pageSize < 2 ^ 16)

include small large

theorem Good.commit (good : world.Good pageSize) {index : Nat} {outcome : CommitOutcome}
    {tree : CowBTree} {shared : Shared}
    (done : world.shared.commit formatVersion (world.handle index) = (outcome, tree, shared))
    (room : shared.next ≤ 2 ^ 64) : World.Good pageSize { world.set index tree with shared } := by
  obtain ⟨current, roots⟩ := good.current
  by_cases pending : (world.handle index).hasPending = true
  · rcases Shared.commit_cases small large good.positive roots (good.handles index) pending done room
      with ⟨error, -, rfl, anchored, -⟩ | ⟨-, rfl, rfl, -⟩ | ⟨-, nextLe, same, newRoots, anchored, -⟩
    · exact good.set anchored
    · exact good.set ((good.handles index).resetTo roots)
    · refine ⟨good.positive.trans_le nextLe, room, ⟨_, newRoots⟩, fun other => ?_⟩
      by_cases isIndex : other = index
      · subst isIndex
        simpa [World.set] using anchored
      · simpa [World.set, isIndex] using (good.handles other).frame same nextLe
  · rw [Shared.commit, if_neg pending] at done
    cases done
    exact good.set (good.handles index)

theorem Good.step (good : world.Good pageSize) {event : Nat × Call}
    (step : world.Step pageSize formatVersion event after) :
    after.Good pageSize := by
  obtain ⟨index, call⟩ := event
  have anchored := good.handles index
  obtain ⟨current, roots⟩ := good.current
  cases call with
  | openHandle =>
    obtain rfl : after = _ := step
    have fresh : (CowBTree.empty pageSize).Anchored pageSize
        (Pages.ofArea pageSize world.shared.area) world.shared.next :=
      ⟨rfl, ⟨_, .empty _ _ _⟩, good.positive, .empty _⟩
    exact good.set (fresh.resetTo roots)
  | beginTxn =>
    obtain rfl : after = _ := step
    have frame := (world.handle index).beginTxn_frame
    simp only [CowBTree.frame, Prod.mk.injEq] at frame
    obtain ⟨size, root, nextPageId, -, ops⟩ := frame
    obtain ⟨contents, ownRoots⟩ := anchored.root
    exact good.set ⟨size.trans anchored.size, ⟨contents, root ▸ ownRoots⟩,
      nextPageId ▸ anchored.next_le, ops ▸ anchored.opsFit⟩
  | put key value =>
    obtain ⟨short, tree, rfl, attempted⟩ := step
    refine good.set (anchored.attempted attempted (fun written done => CowBTree.put_wrote done) ?_)
    rintro written done _ ⟨⟩
    exact ⟨anchored.size ▸ CowBTree.put_fits done, short⟩
  | delete key =>
    obtain ⟨tree, rfl, attempted⟩ := step
    refine good.set (anchored.attempted attempted
      (fun written done => CowBTree.delete_wrote done) ?_)
    rintro written done _ ⟨⟩
  | rollback =>
    obtain rfl : after = _ := step
    exact good.set ⟨anchored.size, anchored.root, anchored.next_le, .empty _⟩
  | refresh =>
    rcases step with rfl | rfl
    · exact good
    · unfold CowBTree.refresh
      split
      · exact good.set anchored
      · exact good.set ⟨anchored.size, ⟨current, roots⟩, max_le le_rfl anchored.next_le,
          anchored.opsFit⟩
  | commit =>
    obtain ⟨outcome, tree, shared, done, rfl, room⟩ := step
    exact good.commit small large done room

theorem good_of_runs {events : List (Nat × Call)}
    (run : (writers pageSize formatVersion).Runs events world) :
    world.Good pageSize := by
  refine System.Runs.invariant (fun _ world => World.Good pageSize world) ?_ ?_ run
  · rintro world rfl
    exact empty_good pageSize
  · intro events state event next good step
    exact good.step small large step

end

end World

theorem World.call_step {pageSize formatVersion : Nat} {world : World} {index : Nat} {call : Call}
    (short : ∀ key value, call = .put key value -> value.length ≤ maxRecordLen pageSize)
    (room : (world.call pageSize formatVersion (index, call)).shared.next ≤ 2 ^ 64) :
    world.Step pageSize formatVersion (index, call)
      (world.call pageSize formatVersion (index, call)) := by
  cases call with
  | openHandle => rfl
  | beginTxn => rfl
  | put key value =>
    refine ⟨short key value rfl, ?_⟩
    simp only [World.call]
    split
    · rename_i tree isTree
      exact ⟨tree, rfl, by rw [isTree]; rfl⟩
    · rename_i error isError
      exact ⟨_, rfl, by rw [isError]; exact ⟨rfl, rfl, rfl, rfl⟩⟩
  | delete key =>
    simp only [World.call, World.Step]
    split
    · rename_i tree isTree
      exact ⟨tree, rfl, by rw [isTree]; rfl⟩
    · rename_i error isError
      exact ⟨_, rfl, by rw [isError]; exact ⟨rfl, rfl, rfl, rfl⟩⟩
  | rollback => rfl
  | refresh => exact .inr rfl
  | commit => exact ⟨_, _, _, rfl, rfl, room⟩

theorem rebasedOps_eq_none {ops : Bytes -> Option (Option Bytes)} {current : Bytes -> Option Bytes}
    {key : Bytes} (absent : ops key = none) (row : mergeableMetadataKey key = false) :
    rebasedOps ops current key = none := by
  have maxed : maxedOps ops current key = none := by
    rw [maxedOps, absent]
    split <;> rfl
  simp only [mergeableMetadataKey, Bool.or_eq_false_iff, beq_eq_false_iff_ne] at row
  obtain ⟨⟨⟨-, notVersion⟩, -⟩, notRecord⟩ := row
  unfold rebasedOps
  split
  · rw [if_neg notVersion, if_neg]
    · split
      · rfl
      · exact maxed
    · rintro ⟨-, rfl⟩
      have starts : cdcMetaPrefix.isPrefixOf (cdcKey (nextVersion current)) = true :=
        List.isPrefixOf_iff_prefix.mpr (List.prefix_append _ _)
      cases notRecord
  · exact maxed

/-- In every run, a commit of an open transaction conflicts exactly when a row it
writes changed under it, and otherwise overlays its operations on the committed
contents of that moment. -/
theorem commit_is_overlay {pageSize formatVersion : Nat} (small : 128 ≤ pageSize)
    (large : pageSize ≤ 65535) {events : List (Nat × Call)} {world : World}
    (run : (writers pageSize formatVersion).Runs events world) (index : Nat)
    (pending : (world.handle index).hasPending = true) {outcome : CommitOutcome} {tree : CowBTree}
    {after : Shared}
    (done : world.shared.commit formatVersion (world.handle index) = (outcome, tree, after))
    (room : after.next ≤ 2 ^ 64) :
    ∃ snapshot current result : Bytes -> Option Bytes,
      (∀ key, world.shared.getAt pageSize (world.handle index).root key = .ok (snapshot key)) ∧
      (∀ key, world.shared.getAt pageSize world.shared.root key = .ok (current key)) ∧
      (∀ key, after.getAt pageSize after.root key = .ok (result key)) ∧
      (outcome = .conflict ↔ ∃ key ∈ (world.handle index).pendingOps,
        mergeableMetadataKey key = false ∧ snapshot key ≠ current key) ∧
      (outcome ≠ .committed -> result = current) ∧
      (outcome = .committed -> result = overlaid ((world.handle index).pendingOps[·]?) current ∧
        ∀ key, mergeableMetadataKey key = false -> snapshot key ≠ current key ->
          result key = current key) := by
  have good := World.good_of_runs small (by omega) run
  obtain ⟨current, nowRoots⟩ := good.current
  have anchored := good.handles index
  obtain ⟨snapshot, wasRoots⟩ := anchored.root
  have conflict : (world.handle index).prepareCommit (Pages.ofArea pageSize world.shared.area)
      formatVersion world.shared.root world.shared.next world.shared.seq = .ok none ↔
      ∃ key ∈ (world.handle index).pendingOps,
        mergeableMetadataKey key = false ∧ snapshot key ≠ current key := by
    have size := anchored.size
    have wasRoots := wasRoots.mono (le_max_left _ (world.handle index).nextPageId)
    rw [<- size] at wasRoots nowRoots ⊢
    exact CowBTree.prepareCommit_conflict (size ▸ small) wasRoots nowRoots
  have cases := Shared.commit_cases small (by omega) good.positive nowRoots anchored pending done room
  rcases cases with ⟨error, rfl, rfl, -, notNone⟩ | ⟨rfl, rfl, -, isNone⟩ |
    ⟨rfl, -, -, newRoots, -, notNone⟩
  · refine ⟨snapshot, current, current, wasRoots.getAt_eq small, nowRoots.getAt_eq small,
      nowRoots.getAt_eq small, ?_, fun _ => rfl, by simp⟩
    simpa using fun found => notNone (conflict.mpr found)
  · exact ⟨snapshot, current, current, wasRoots.getAt_eq small, nowRoots.getAt_eq small,
      nowRoots.getAt_eq small, ⟨fun _ => conflict.mp isNone, fun _ => rfl⟩, fun _ => rfl, by simp⟩
  · refine ⟨snapshot, current, _, wasRoots.getAt_eq small, nowRoots.getAt_eq small,
      newRoots.getAt_eq small, ?_, by simp, fun _ => ⟨rfl, ?_⟩⟩
    · simpa using fun found => notNone (conflict.mpr found)
    · intro key row changed
      have absent : (world.handle index).pendingOps[key]? = none := by
        by_contra present
        have member : key ∈ (world.handle index).pendingOps := by
          rw [Std.TreeMap.mem_iff_isSome_getElem?]
          exact Option.isSome_iff_ne_none.mpr present
        exact notNone (conflict.mpr ⟨key, member, row, changed⟩)
      rw [overlaid, rebasedOps_eq_none absent row, Option.getD_none]

/-- Whether calls one after another put no value and count no page beyond what a run allows. -/
def World.takes (pageSize formatVersion : Nat) : World -> List (Nat × Call) -> Bool
  | _, [] => true
  | world, event :: events =>
    let after := world.call pageSize formatVersion event
    let short := match event.2 with
      | .put _ value => decide (value.length ≤ maxRecordLen pageSize)
      | _ => true
    short && decide (after.shared.next ≤ 2 ^ 64) && after.takes pageSize formatVersion events

theorem steps_calls {pageSize formatVersion : Nat} {before events : List (Nat × Call)}
    {start world : World} (steps : (writers pageSize formatVersion).Steps start before world)
    (takes : world.takes pageSize formatVersion events = true) :
    (writers pageSize formatVersion).Steps start (before ++ events)
      (events.foldl (World.call pageSize formatVersion) world) := by
  induction events generalizing before world with
  | nil => simpa using steps
  | cons event events ih =>
    simp only [World.takes, Bool.and_eq_true, decide_eq_true_eq] at takes
    obtain ⟨⟨short, room⟩, later⟩ := takes
    have bounded : ∀ key value, event.2 = .put key value ->
        value.length ≤ maxRecordLen pageSize := by
      intro key value isPut
      simpa [isPut] using short
    simpa using ih (steps.step (World.call_step bounded room)) later

theorem runs_calls {pageSize formatVersion : Nat} {events : List (Nat × Call)}
    (takes : (World.empty pageSize).takes pageSize formatVersion events = true) :
    (writers pageSize formatVersion).Runs events
      (events.foldl (World.call pageSize formatVersion) (World.empty pageSize)) :=
  ⟨_, rfl, steps_calls .refl takes⟩

/-- A handle commits over a row that another committed after it had begun. -/
theorem one_commit_overlays : ∃ world after tree,
    (writers 128 6).Runs [(0, .put [1] [2]), (1, .put [3] [4]), (0, .commit)] world ∧
      world.shared.root ≠ (world.handle 1).root ∧
      world.shared.commit 6 (world.handle 1) = (.committed, tree, after) ∧
      after.getAt 128 after.root [1] = .ok (some [2]) ∧
      after.getAt 128 after.root [3] = .ok (some [4]) := by
  let events : List (Nat × Call) := [(0, .put [1] [2]), (1, .put [3] [4]), (0, .commit)]
  let world := events.foldl (World.call 128 6) (.empty 128)
  have run : (writers 128 6).Runs events world := runs_calls (by decide +kernel)
  have stale : world.shared.root ≠ (world.handle 1).root := by decide +kernel
  have pending : (world.handle 1).hasPending = true := by decide +kernel
  have isCommitted : (world.shared.commit 6 (world.handle 1)).1 = .committed := by decide +kernel
  have room : (world.shared.commit 6 (world.handle 1)).2.2.next ≤ 2 ^ 64 := by decide +kernel
  have row : world.shared.getAt 128 world.shared.root [1] = .ok (some [2]) := by decide +kernel
  generalize done : world.shared.commit 6 (world.handle 1) = result at isCommitted room
  obtain ⟨outcome, tree, after⟩ := result
  obtain rfl : outcome = .committed := isCommitted
  obtain ⟨snapshot, current, result, -, now, read, -, -, overlays⟩ :=
    commit_is_overlay (by decide) (by decide) run 1 pending done room
  obtain ⟨isResult, -⟩ := overlays rfl
  have put : (world.handle 1).pendingOps[([3] : Bytes)]? = some (some [4]) := by decide +kernel
  have other : (world.handle 1).pendingOps[([1] : Bytes)]? = none := by decide +kernel
  have noVersion : (world.handle 1).pendingOps[writeVersionMeta]? = none := by decide +kernel
  refine ⟨world, after, tree, run, stale, done, ?_, ?_⟩
  · rw [read, isResult, <- row, now]
    simp only [overlaid, rebasedOps, maxedOps, noVersion, other]
    rfl
  · rw [read, isResult]
    simp only [overlaid, rebasedOps, maxedOps, noVersion, put]
    rfl

/-- Two handles put the same change record. Neither commit conflicts, and the update
committed first is gone. -/
theorem change_record_overwritten : ∃ world after tree,
    (writers 128 6).Runs [(0, .put (cdcKey 1) [1]), (1, .put (cdcKey 1) [2]), (0, .commit)] world ∧
      world.shared.getAt 128 (world.handle 1).root (cdcKey 1) = .ok none ∧
      world.shared.getAt 128 world.shared.root (cdcKey 1) = .ok (some [1]) ∧
      world.shared.commit 6 (world.handle 1) = (.committed, tree, after) ∧
      after.getAt 128 after.root (cdcKey 1) = .ok (some [2]) := by
  let events : List (Nat × Call) :=
    [(0, .put (cdcKey 1) [1]), (1, .put (cdcKey 1) [2]), (0, .commit)]
  let world := events.foldl (World.call 128 6) (.empty 128)
  have run : (writers 128 6).Runs events world := runs_calls (by decide +kernel)
  have isCommitted : (world.shared.commit 6 (world.handle 1)).1 = .committed := by decide +kernel
  have read : (world.shared.commit 6 (world.handle 1)).2.2.getAt 128
      (world.shared.commit 6 (world.handle 1)).2.2.root (cdcKey 1) = .ok (some [2]) := by
    decide +kernel
  have snapshot : world.shared.getAt 128 (world.handle 1).root (cdcKey 1) = .ok none := by
    decide +kernel
  have current : world.shared.getAt 128 world.shared.root (cdcKey 1) = .ok (some [1]) := by
    decide +kernel
  generalize done : world.shared.commit 6 (world.handle 1) = result at isCommitted read
  obtain ⟨outcome, tree, after⟩ := result
  obtain rfl : outcome = .committed := isCommitted
  exact ⟨world, after, tree, run, snapshot, current, done, read⟩

end InlaySql.Btree
