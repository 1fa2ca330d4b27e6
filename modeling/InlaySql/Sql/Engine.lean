import InlaySql.Sql.Namespaces
import InlaySql.Sql.Plan

/-!
# The engine's state

One handle on a database: what it reads and has buffered, its catalog and counters, the
retrieval indexes it keeps in memory, the transaction it may have open and the hash-join
build it retains. Other handles commit to the same file; what they have committed when
this handle next commits is part of the schedule it runs under, and so are the answers
of its cancellation signal.
-/

namespace InlaySql.Sql

open Lib

/-! ## Committing to a shared store -/

/-- `mergeable_metadata_key`. -/
def StoreKey.mergeable : StoreKey -> Bool
  | .named name => name == "next_row_id" || name == "write_version" || name == "cdc_floor" ||
      "cdc:".isPrefixOf name
  | _ => false

/-- A counter, zero when it was never written. -/
def Contents.counter (contents : Contents) (name : String) : Nat :=
  match contents[StoreKey.named name]? with
  | some (.counter value) => value
  | _ => 0

/-- One operation done to some contents. -/
def Contents.redo (contents : Contents) : StoreKey × Option StoreValue -> Contents
  | (key, some value) => contents.insert key value
  | (key, none) => contents.erase key

namespace StoreOps

def mergeMaxCounter (shared : Contents) (ops : StoreOps) (name : String) : StoreOps :=
  match ops[StoreKey.named name]? with
  | some (some (.counter pending)) =>
    ops.insert (.named name) (some (.counter (max pending (shared.counter name))))
  | _ => ops

/-- Move the change record of the pending write version to the rebased one. -/
def moveRecord (ops : StoreOps) (pending rebased : Nat) : StoreOps :=
  match ops[StoreKey.named (recordKey pending)]? with
  | some record => (ops.erase (.named (recordKey pending))).insert (.named (recordKey rebased)) record
  | none => ops

def mergeMonotonicMetadata (shared : Contents) (ops : StoreOps) : StoreOps :=
  let ops := mergeMaxCounter shared ops "next_row_id"
  let ops := mergeMaxCounter shared ops "cdc_floor"
  match ops[StoreKey.named "write_version"]? with
  | some (some (.counter pending)) =>
    let rebased := shared.counter "write_version" + 1
    moveRecord (ops.insert (.named "write_version") (some (.counter rebased))) pending rebased
  | _ => ops

end StoreOps

namespace Store

/-- The conflict loop of `rebase_pending`: a key that is not merged has another committed
value than the snapshot had. -/
def conflicts (self : Store) (shared : Contents) : Bool :=
  self.ops.keys.any fun key => !key.mergeable && self.base[key]? != shared[key]?

/-- What the file holds after this transaction is replayed on top of `shared`. -/
def rebased (self : Store) (shared : Contents) : Contents :=
  (self.ops.mergeMonotonicMetadata shared).toList.foldl Contents.redo shared

end Store

/-- What becomes of one commit of this handle: what the commits of other handles have made
of the file by then, and whether the device refuses it. -/
structure CommitFate where
  arrived : Contents -> Contents
  failure : Option Error

/-- A commit nothing came before and nothing fails. -/
def CommitFate.clean : CommitFate := ⟨id, none⟩

namespace Storage

/-- `commit` of the router: the durable store first, the temporary one only after it. A
handle without writes does not look at the file. -/
def commit (self : Storage) (shared : Contents) (failure : Option Error) :
    Except Error Unit × Storage × Contents :=
  if self.main.ops.isEmpty then
    (.ok (), { self with temp := .opened self.temp.working }, shared)
  else
    match failure with
    | some error => (.error error, { self with temp := self.temp.rollback }, shared)
    | none =>
      if self.main.conflicts shared then
        (.error .conflict, { self with main := .opened shared, temp := self.temp.rollback },
          shared)
      else
        (.ok (), { self with
          main := .opened (self.main.rebased shared)
          temp := .opened self.temp.working }, self.main.rebased shared)

end Storage

/-! ## The host -/

/-- What a row contributes to a retrieval index. -/
inductive Document where
  | text (text : String)
  | vector (lanes : List UInt32)
  deriving DecidableEq, Repr

/-- The backend a retrieval index lives under. -/
structure RetrievalKey where
  kind : IndexKind
  table : String
  columns : List String
  deriving DecidableEq, Repr

/-- The documents one live retrieval index holds. -/
abbrev Documents := RowId -> Option Document

/-- What the engine is configured with: the evaluator of every expression the plans leave
abstract, the parser of stored expressions, the serialised form of a retrieval index, the
capacity of one log record, and options. -/
structure Host where
  numerals : Numerals
  operate : BinaryOp -> Value -> Value -> Except Error Value
  other : Nat -> Row -> Int -> Rng -> Except Error Value
  draw : Expr -> Row -> Int -> Rng -> Rng
  parseExpression : Option Table -> String -> Except Error Expr
  expressionMentions : String -> String -> Except Error Bool
  rewriteColumnReference : String -> String -> String -> Except Error String
  storedRow : Table -> Row -> Row
  saveIndex : IndexKind -> Documents -> Option Bytes
  loadIndex : IndexKind -> Bytes -> Option Documents
  nearlyFull : StoreOps -> Bool
  supportsQuantizedVectors : Bool
  implicitIndexes : Bool
  hashJoinCacheBytes : Nat
  residentBytes : HashJoinTable -> Nat

/-- The environment of one evaluation. -/
def Host.env (host : Host) (params : List Value) (now : Int) (rng : Rng) : Env where
  numerals := host.numerals
  params := params
  operate := host.operate
  other code row := host.other code row now rng

/-! ## The state -/

/-- One entry of the replay log. -/
structure LoggedStatement where
  statement : Statement
  params : List Value
  now : Int

/-- One open savepoint. -/
structure SavepointFrame where
  name : String
  logPosition : Nat
  deriving DecidableEq, Repr

/-- A build a join was given, beside the rows its table had at that moment. -/
structure JoinAnswer where
  shape : JoinShape
  given : HashJoinTable
  visible : List Row

/-- One handle. `shared` is what the file holds; `fates`, `signals`, `instants` and `rng`
are the schedule; `joins` records every build a join was given. -/
structure Engine where
  shared : Contents
  storage : Storage
  catalog : Catalog
  retrieval : RetrievalKey -> Option Documents
  dirtyTables : List String
  nextRowId : RowId
  lastInsertRowId : Option RowId
  writeVersion : Nat
  schemaVersion : Nat
  persistedVersion : Nat
  indexedVersion : Nat
  cdcFloor : Nat
  pendingChanges : List Change
  inTransaction : Bool
  transactionIsImplicit : Bool
  transactionLog : List LoggedStatement
  savepoints : List SavepointFrame
  replaying : Bool
  hashJoinCache : Option CachedHashJoin
  now : Int
  instants : List Int
  rng : Rng
  signals : List (Option Stopped)
  fates : List CommitFate
  joins : List JoinAnswer

/-- A method of the engine. -/
abbrev Method (α : Type) := Stateful Engine Error α

open Stateful

namespace Engine

/-- `Interrupt::check`: the host's next answer. -/
def check : Method Unit := fun engine =>
  match engine.signals with
  | some stopped :: rest => (.error (.cancelled stopped), { engine with signals := rest })
  | none :: rest => (.ok (), { engine with signals := rest })
  | [] => (.ok (), engine)

/-- `evaluate`, in the statement's environment. -/
def evaluate (host : Host) (params : List Value) (row : Row) (expr : Expr) : Method Value :=
  fun engine => (expr.evaluate (host.env params engine.now engine.rng) row,
    { engine with rng := host.draw expr row engine.now engine.rng })

def noteChange (table : String) (id : RowId) (kind : ChangeKind) : Method Unit :=
  change fun engine => { engine with pendingChanges := engine.pendingChanges ++ [(table, id, kind)] }

/-- Change what is buffered. -/
def write (update : Storage -> Storage) : Method Unit :=
  change fun engine => { engine with storage := update engine.storage }

def reserveRowId (id : RowId) : Method Unit :=
  change fun engine => { engine with nextRowId := max engine.nextRowId (min (id + 1) (2 ^ 64 - 1)) }

def readCounter (storage : Storage) (name what : String) : Except Error (Option Nat) :=
  match storage.getMeta name with
  | some (.counter value) => .ok (some value)
  | some _ => .error (.corrupt s!"{what} is malformed")
  | none => .ok none

/-- The catalog as it is stored. -/
def storedCatalog (storage : Storage) : Except Error Catalog :=
  match storage.getMeta "catalog" with
  | some (.catalog catalog) => .ok catalog
  | some _ => .error (.corrupt "catalog is malformed")
  | none => .ok .empty

/-- One counter as the store has it, or its first value. -/
def counterOr (name what : String) (first : Nat) : Method Nat := do
  let found <- tryGets fun engine => readCounter engine.storage name what
  return found.getD first

/-- The counters as the store has them. -/
def readCounters : Method Unit := do
  let nextRowId <- counterOr "next_row_id" "next row id" 1
  change fun engine => { engine with nextRowId }
  let writeVersion <- counterOr "write_version" "write version" 0
  change fun engine => { engine with writeVersion }
  let cdcFloor <- counterOr "cdc_floor" "change floor" 0
  change fun engine => { engine with cdcFloor }
  let schemaVersion <- counterOr "schema_version" "schema version" 0
  change fun engine => { engine with schemaVersion }

/-- `invalidate_rules`: what was resolved against the catalog is thrown away, the
retained build with it. -/
def invalidateRules : Method Unit := change fun engine => { engine with hashJoinCache := none }

/-- `storage.commit()`, under the next fate of the schedule. -/
def storageCommit : Method Unit := fun engine =>
  let fate := engine.fates.head?.getD .clean
  let (result, storage, shared) :=
    engine.storage.commit (fate.arrived engine.shared) fate.failure
  (result, { engine with storage, shared, fates := engine.fates.tail })

end Engine

end InlaySql.Sql
