import InlaySql.Btree.Rollback
import InlaySql.Lib.Buffered
import InlaySql.Sql.Namespaces
import InlaySql.Sql.Storage

/-!
# Storage for temporary tables

A router in front of the durable tree: the rows of a table marked temporary are kept in
memory, everything else is a write of the tree. A commit settles the durable side first
and the temporary side after it; other handles work on the same device meanwhile.
-/

namespace InlaySql.Sql

open Lib Btree

/-! ## The in-memory side -/

/-- `MemStorage`: its maps of rows, keyed rows, metadata and index entries, as one map,
and how often it was committed. -/
structure MemStorage where
  entries : Buffered StoreKey Bytes StoreKey.cmp
  commits : Nat

namespace MemStorage

def empty : MemStorage := ⟨.empty, 0⟩

def commit (self : MemStorage) : MemStorage := ⟨self.entries.commit, self.commits + 1⟩

def rollback (self : MemStorage) : MemStorage := { self with entries := self.entries.rollback }

/-- Nothing is buffered. -/
def Settled (self : MemStorage) : Prop := self.entries.pending = ∅

end MemStorage

/-! ## Writes -/

/-- The writes of the storage surface. -/
inductive StorageWrite where
  | putRow (table : String) (id : RowId) (bytes : Bytes)
  | deleteRow (table : String) (id : RowId)
  | putRowKeyed (table : String) (key bytes : Bytes)
  | deleteRowKeyed (table : String) (key : Bytes)
  | putMeta (name : String) (bytes : Bytes)
  | putIndexEntry (key : Bytes)
  | deleteIndexEntry (key : Bytes)
  deriving DecidableEq, Repr

namespace StorageWrite

/-- The table a write is routed by. -/
def table : StorageWrite -> Option String
  | .putRow table _ _ | .deleteRow table _ | .putRowKeyed table _ _ | .deleteRowKeyed table _ =>
    some table
  | .putMeta _ _ | .putIndexEntry _ | .deleteIndexEntry _ => none

/-- The write as `TreeStorage` makes it. -/
def treeCall : StorageWrite -> Btree.Call
  | .putRow table id bytes => .put (rowKey table id) bytes
  | .deleteRow table id => .delete (rowKey table id)
  | .putRowKeyed table key bytes => .put (tablePrefix table ++ key) bytes
  | .deleteRowKeyed table key => .delete (tablePrefix table ++ key)
  | .putMeta name bytes => .put (metaKey name) bytes
  | .putIndexEntry key => .put key []
  | .deleteIndexEntry key => .delete key

/-- The write as `MemStorage` buffers it. -/
def buffered : StorageWrite -> StoreKey × Option Bytes
  | .putRow table id bytes => (.row (lower table) id, some bytes)
  | .deleteRow table id => (.row (lower table) id, none)
  | .putRowKeyed table key bytes => (.keyed (lower table) key, some bytes)
  | .deleteRowKeyed table key => (.keyed (lower table) key, none)
  | .putMeta name bytes => (.named name, some bytes)
  | .putIndexEntry key => (.entry key, some [])
  | .deleteIndexEntry key => (.entry key, none)

end StorageWrite

/-- Buffer one write. -/
def MemStorage.write (self : MemStorage) (write : StorageWrite) : MemStorage :=
  { self with entries := self.entries.write write.buffered.1 write.buffered.2 }

/-! ## The router -/

/-- `TempTableRouter` over one handle of a device, with the device and its other handles. -/
structure TempTableRouter where
  world : World
  temp : MemStorage
  tempTables : List String

/-- What happens to a router and its device. -/
inductive RouterCall where
  | write (write : StorageWrite)
  | setTempTable (table : String) (temporary : Bool)
  | beginTxn
  | refresh
  | other (handle : Nat) (call : Btree.Call)
  | commit
  | conflict
  | fail (failure : Failure)
  | rollback
  deriving DecidableEq, Repr

namespace TempTableRouter

/-- A router on a formatted device, without temporary tables. -/
def new (pageSize : Nat) : TempTableRouter := ⟨.empty pageSize, .empty, []⟩

def isTemp (self : TempTableRouter) (table : String) : Bool :=
  self.tempTables.contains (lower table)

def setTempTable (self : TempTableRouter) (table : String) (temporary : Bool) : TempTableRouter :=
  { self with tempTables :=
      if temporary then self.tempTables.insert (lower table)
      else self.tempTables.filter (· ≠ lower table) }

/-- Whether a write goes to the temporary side. -/
def routed (self : TempTableRouter) (write : StorageWrite) : Bool :=
  match write.table with
  | some table => self.isTemp table
  | none => false

variable (pageSize formatVersion index : Nat)

/-- A commit of the durable side that reached `outcome`. -/
def Settles (outcome : CommitOutcome) (world after : World) : Prop :=
  ∃ tree shared, world.shared.commit formatVersion (world.handle index) = (outcome, tree, shared) ∧
    shared.next ≤ 2 ^ 64 ∧ after = { world.set index tree with shared }

/-- A commit of the durable side that failed. Under `guarded` it took no member of its
cohort into the records. -/
def Fails (guarded : Prop) (failure : Failure) (world after : World) : Prop :=
  ∃ device : RegionLog, device.shared = world.shared ∧ ∃ members left shared,
    (world.handle index).hasPending = true ∧
    CommitFails formatVersion device (world.handle index) members failure left shared ∧
    (guarded -> TakesNone formatVersion device (world.handle index) members failure) ∧
    shared.next ≤ 2 ^ 64 ∧ after = { world.set index left with shared }

/-- One call. `commit` asks the durable side first: only when that reports success is the
temporary side committed, otherwise it is rolled back. -/
def Step (guarded : Prop) (self : TempTableRouter) : RouterCall -> TempTableRouter -> Prop
  | .write write, after =>
    if self.routed write then after = { self with temp := self.temp.write write }
    else ∃ world, self.world.Step pageSize formatVersion (index, write.treeCall) world ∧
      after = { self with world }
  | .setTempTable table temporary, after => after = self.setTempTable table temporary
  | .beginTxn, after => ∃ world, self.world.Step pageSize formatVersion (index, .beginTxn) world ∧
      after = { self with world }
  | .refresh, after => ∃ world, self.world.Step pageSize formatVersion (index, .refresh) world ∧
      after = { self with world }
  | .other handle call, after => handle ≠ index ∧ ∃ world,
      self.world.Step pageSize formatVersion (handle, call) world ∧ after = { self with world }
  | .commit, after => ∃ world, Settles formatVersion index .committed self.world world ∧
      after = { self with world, temp := self.temp.commit }
  | .conflict, after => ∃ world, Settles formatVersion index .conflict self.world world ∧
      after = { self with world, temp := self.temp.rollback }
  | .fail failure, after => ∃ world, Fails formatVersion index guarded failure self.world world ∧
      after = { self with world, temp := self.temp.rollback }
  | .rollback, after => ∃ world, self.world.Step pageSize formatVersion (index, .rollback) world ∧
      after = { self with world, temp := self.temp.rollback }

end TempTableRouter

/-- A router on a handle of a device, and any calls on it and on the other handles. -/
def routing (pageSize formatVersion index : Nat) (guarded : Prop) :
    System TempTableRouter RouterCall where
  Initial state := state = .new pageSize
  Step := TempTableRouter.Step pageSize formatVersion index guarded

/-! ## Transactions -/

/-- What happens between the start of a transaction and its end: its writes, and whatever
other handles do. -/
def RouterCall.Inside : RouterCall -> Prop
  | .write _ | .setTempTable _ _ | .beginTxn | .other _ _ => True
  | .refresh | .commit | .conflict | .fail _ | .rollback => False

namespace TempTableRouter

/-- No transaction is open on either side. -/
structure Quiet (index : Nat) (router : TempTableRouter) : Prop where
  durable : (router.world.handle index).hasPending = false
  temporary : router.temp.Settled

/-- The durable side without its open transaction. -/
def shown (pageSize index : Nat) (self : TempTableRouter) (key : Bytes) :
    Except Btree.Error (Option Bytes) :=
  self.world.shared.getAt pageSize (self.world.handle index).root key

/-- What is committed on the device. -/
def committed (pageSize : Nat) (self : TempTableRouter) (key : Bytes) :
    Except Btree.Error (Option Bytes) :=
  self.world.shared.getAt pageSize self.world.shared.root key

end TempTableRouter

end InlaySql.Sql
