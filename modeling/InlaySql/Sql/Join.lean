import InlaySql.Lib.Buckets
import InlaySql.Sql.AccessExact

/-!
# Joins

A join pairs each outer row with the inner rows its `ON` admits. The inner side is the
whole table, the rows an outer key names by row id or in an index, or a table hashed by
the join key; the `ON` decides each candidate, except where the hashed key is the whole
`ON`. Rows are delivered one by one until an error ends the join.
-/

namespace InlaySql.Sql

open Lib

/-! ## Rows under a mask -/

/-- Which columns a statement reads. Columns past its width are wanted. -/
structure ColumnMask where
  everything : Bool
  wanted : List Bool
  deriving DecidableEq, Repr

namespace ColumnMask

def all : ColumnMask := ⟨true, []⟩

def wants (self : ColumnMask) (ordinal : Nat) : Bool :=
  self.everything || (self.wanted[ordinal]?).getD true

/-- `decode_row_masked`: a column that is not wanted reads as `NULL`. -/
def apply (self : ColumnMask) (row : Row) : Row :=
  row.mapIdx fun ordinal value => if self.wants ordinal then value else .null

end ColumnMask

/-! ## The join keys of an `ON` -/

/-- One `outer_column = inner_column` of an `ON`. -/
structure JoinKey where
  outer : Nat
  inner : Nat
  collation : Collation
  deriving DecidableEq, Repr

def collectJoinKeys (offset width : Nat) : Expr -> List JoinKey
  | .binary .and left right _ _ =>
    collectJoinKeys offset width left ++ collectJoinKeys offset width right
  | .binary .eq left right collation _ =>
    match left.withoutCollate, right.withoutCollate with
    | .column left, .column right =>
      if left < offset ∧ offset ≤ right ∧ right < offset + width then
        [⟨left, right - offset, collation⟩]
      else if right < offset ∧ offset ≤ left ∧ left < offset + width then
        [⟨right, left - offset, collation⟩]
      else []
    | _, _ => []
  | _ => []

/-- The declared types an ordered structure can answer for. -/
def DataType.isStorageClass : DataType -> Bool
  | .integer | .real | .text | .blob => true
  | _ => false

/-- `outer_column_type`: the declared type of a column of the tables before the join. -/
def outerColumnType : List Table -> Nat -> DataType
  | [], _ => .numeric
  | table :: rest, ordinal =>
    match table.columns[ordinal]? with
    | some column => column.ty
    | none => outerColumnType rest (ordinal - table.columns.length)

/-- `hash_join_key`: the first key whose columns share a storage class. -/
def hashJoinKey (outers : List Table) (inner : Table) (offset : Nat) (on : Option Expr) :
    Option JoinKey := do
  (collectJoinKeys offset inner.columns.length (<- on)).find? fun key =>
    (inner.columns[key.inner]?).any fun column =>
      column.ty.isStorageClass && outerColumnType outers key.outer == column.ty

def isSingleEquality : Option Expr -> Bool
  | some (.binary .eq _ _ _ _) => true
  | _ => false

/-- How an outer key reaches the inner rows. -/
inductive ProbeKind where
  | rowId
  | index (name : String)
  deriving DecidableEq, Repr

/-- Whether an index leads with a column, under a collation. -/
def leadsWith (inner : Table) (key : JoinKey) (index : Index) : Bool :=
  index.kind == .btree &&
    ((index.columns[0]?).bind inner.column).any (fun found => found.1 == key.inner) &&
      index.collation 0 == key.collation

/-- The index of a join key: of those that lead with its column, the first of the
narrowest. -/
def narrowestIndex (inner : Table) (key : JoinKey) (indexes : List Index) : Option Index :=
  indexes.foldl (fun best index =>
    if leadsWith inner key index &&
        best.all (fun best => decide (index.columns.length < best.columns.length)) then some index
    else best) none

/-- The probe of one key, if an index leads with its column. -/
def indexedProbe (inner : Table) (indexes : List Index) (key : JoinKey) :
    Option (Nat × DataType × Collation × ProbeKind) := do
  let column <- inner.columns[key.inner]?
  if column.ty.isStorageClass then
    let index <- narrowestIndex inner key indexes
    return (key.outer, column.ty, key.collation, .index index.name)
  else none

/-- `join_probe`: the row id wherever it appears, else the first key with an index. -/
def joinProbe (catalog : Catalog) (inner : Table) (offset : Nat) (on : Option Expr) :
    Option (Nat × DataType × Collation × ProbeKind) := do
  let keys := collectJoinKeys offset inner.columns.length (<- on)
  match inner.rowidAlias.bind fun aliased => keys.find? fun key => key.inner == aliased with
  | some key => return (key.outer, .integer, .binary, .rowId)
  | none => keys.findSome? (indexedProbe inner (catalog.indexesFor inner.name))

/-- The two operators a cost model chooses between. -/
inductive JoinPath where
  | hash
  | probe
  deriving DecidableEq, Repr

/-- Where the inner rows come from. -/
inductive JoinStrategy where
  | hash (outerKey innerKey : Nat) (collation : Collation)
  | probe (key : Nat) (ty : DataType) (collation : Collation) (kind : ProbeKind)
  | materialise
  deriving DecidableEq, Repr

namespace JoinStrategy

def ofHash (key : JoinKey) : JoinStrategy := .hash key.outer key.inner key.collation

def ofProbe : Nat × DataType × Collation × ProbeKind -> JoinStrategy
  | (key, ty, collation, kind) => .probe key ty collation kind

end JoinStrategy

/-- `join_strategy`. The decision is that of the cost model, where its statistics are
current. -/
def joinStrategy (catalog : Catalog) (outers : List Table) (inner : Table) (offset : Nat)
    (on : Option Expr) (fullScan : Bool) (decision : Option JoinPath) : JoinStrategy :=
  let hashKey := hashJoinKey outers inner offset on
  let probe := joinProbe catalog inner offset on
  let ruled :=
    match fullScan, hashKey, probe with
    | true, some key, _ => .ofHash key
    | _, _, some probe => .ofProbe probe
    | _, _, none => .materialise
  match decision, hashKey, probe with
  | some .hash, some key, _ => .ofHash key
  | some .probe, _, some probe => .ofProbe probe
  | _, _, _ => ruled

/-! ## The hash build -/

def mix64 (bits : UInt64) : UInt64 :=
  let bits := (bits ^^^ (bits >>> 30)) * 0xbf58476d1ce4e5b9
  let bits := (bits ^^^ (bits >>> 27)) * 0x94d049bb133111eb
  bits ^^^ (bits >>> 31)

def fnv1a (bytes : Bytes) : UInt64 :=
  bytes.foldl (fun hash byte => (hash ^^^ byte.toUInt64) * 0x100000001b3) 0xcbf29ce484222325

/-- `real + 0.0`: one zero, and a quiet `NaN`. -/
def F64.plusZero (value : F64) : F64 :=
  if value.isZero then ⟨0⟩
  else if value.isNan then ⟨value.bits ||| 0x0008000000000000⟩
  else value

def hashValue (collation : Collation) : Value -> UInt64
  | .integer value => UInt64.ofInt value * 0x9e3779b97f4a7c15
  | .text text => fnv1a (collation.fold (utf8 text))
  | .blob bytes => fnv1a bytes
  | .real real => mix64 real.plusZero.bits
  | .null | .vector _ => 0

def keysEqual (outer inner : Value) (collation : Collation) : Bool :=
  if outer.isNull || inner.isNull then false
  else
    match outer, inner with
    | .text outerText, .text innerText =>
      if collation = .binary then outerText == innerText
      else collation.fold (utf8 outerText) == collation.fold (utf8 innerText)
    | outer, inner => outer.eq inner

/-- The built half of a hash join. -/
structure HashJoinTable where
  rows : List Row
  offsets : List Nat
  mask : Nat
  innerKey : Nat
  width : Nat
  collation : Collation
  deriving DecidableEq, Repr

namespace HashJoinTable

/-- The bucket a key selects. -/
def bucket (mask : Nat) (collation : Collation) (value : Value) : Nat :=
  (hashValue collation value).toNat &&& mask

/-- How many buckets a build of so many rows has. -/
def bucketsFor (rows : Nat) : Nat := max rows.nextPowerOfTwo 16

/-- `build_table`, over the rows of a scan under their mask. -/
def build (rows : List Row) (innerKey width : Nat) (collation : Collation) : HashJoinTable :=
  let buckets := bucketsFor rows.length
  let bucket := fun row : Row => bucket (buckets - 1) collation (row.cell innerKey)
  ⟨Buckets.grouped bucket [] buckets rows, Buckets.offsets bucket buckets rows, buckets - 1,
    innerKey, width, collation⟩

/-- The run of the rows of a bucket. -/
def run (self : HashJoinTable) (number : Nat) : List Row :=
  let start := (self.offsets[number]?).getD 0
  let stop := (self.offsets[number + 1]?).getD 0
  (self.rows.drop start).take (stop - start)

/-- The rows `prepare` narrows to; a `NULL` or missing key selects none. -/
def candidates (self : HashJoinTable) : Option Value -> List Row
  | none | some .null => []
  | some value => self.run (bucket self.mask self.collation value)

def candidateMatches (self : HashJoinTable) (key : Option Value) (row : Row) : Bool :=
  match key, row[self.innerKey]? with
  | some outer, some inner => keysEqual outer inner self.collation
  | _, _ => false

end HashJoinTable

/-! ## The build that is kept -/

/-- The physical shape of a hash-join build: which rows, and how they are laid out. -/
structure JoinShape where
  table : String
  mask : ColumnMask
  innerKey : Nat
  width : Nat
  collation : Collation
  deriving DecidableEq

/-- The one retained hash-join build. -/
structure CachedHashJoin where
  writeVersion : Nat
  shape : JoinShape
  table : HashJoinTable

/-- `build_table` over the rows a table has now. -/
def buildTable (storage : Storage) (shape : JoinShape) : HashJoinTable :=
  .build ((storage.rows shape.table).map fun stored => shape.mask.apply stored.2) shape.innerKey
    shape.width shape.collation

/-- `hash_join_cache`, and what an engine decides by: its write version, whether the open
transaction has buffered a change, and which builds are small enough to keep. A write to a
temporary table moves neither of the first two. -/
structure HashJoinCache where
  writeVersion : Nat
  transactionHasWrites : Bool
  retains : HashJoinTable -> Bool
  cached : Option CachedHashJoin

/-- The build a join of this shape reuses. -/
def HashJoinCache.reused (cache : HashJoinCache) (shape : JoinShape) : Option HashJoinTable :=
  if cache.transactionHasWrites then none
  else (cache.cached.filter fun cached => cached.writeVersion == cache.writeVersion &&
    decide (cached.shape = shape)).map (·.table)

/-- `hash_join_table`: the build kept for this shape, or a new one, kept from now on. -/
def hashJoinTable (storage : Storage) (cache : HashJoinCache) (shape : JoinShape) :
    HashJoinTable × HashJoinCache :=
  match cache.reused shape with
  | some table => (table, cache)
  | none =>
    let table := buildTable storage shape
    (table, if !cache.transactionHasWrites && cache.retains table then
        { cache with cached := some ⟨cache.writeVersion, shape, table⟩ } else cache)

/-- A build that can be reused is that of the rows its table has now. -/
def HashJoinCache.Current (storage : Storage) (cache : HashJoinCache) : Prop :=
  ∀ {shape table}, cache.reused shape = some table -> table = buildTable storage shape

/-! ## The probe -/

/-- `real as i64`: towards zero, and to the nearest bound. -/
def F64.toI64 (value : F64) : Int :=
  let exponent := value.magnitude.toNat / 2 ^ 52
  let significand := 2 ^ 52 + value.magnitude.toNat % 2 ^ 52
  let magnitude : Nat :=
    if exponent < 1023 then 0
    else if exponent ≤ 1075 then significand / 2 ^ (1075 - exponent)
    else if exponent < 1087 then significand * 2 ^ (exponent - 1075)
    else 2 ^ 63
  if value.isNan then 0
  else if value.bits &&& signBit ≠ 0 then max (-(magnitude : Int)) (-2 ^ 63)
  else min (magnitude : Int) (2 ^ 63 - 1)

def rowIdOf : Value -> Option RowId
  | .integer key => rowIdOfInt key
  | .real real =>
    let whole := real.toI64
    if (F64.ofInt whole).eq real then rowIdOfInt whole else none
  | _ => none

/-- The inner side of a join, read one outer key at a time. -/
structure IndexProbe where
  table : String
  mask : ColumnMask
  width : Nat
  key : Nat
  ty : DataType
  collation : Collation
  kind : ProbeKind
  deriving DecidableEq, Repr

namespace IndexProbe

variable (storage : Storage) (self : IndexProbe)

/-- `fall_back`: the whole inner table. -/
def fallBack : List Row := (storage.rows self.table).map fun stored => self.mask.apply stored.2

/-- The rows some ids name. -/
def fetched (ids : List RowId) : List Row :=
  (storage.fetch self.table ids).map fun stored => self.mask.apply stored.2

def probe (key : Value) : Except Error (List Row) :=
  match self.kind with
  | .rowId => .ok (self.fetched storage (rowIdOf key).toList)
  | .index index => do
      let range <- KeyRange.equality index [key] [self.collation]
      return self.fetched storage
        ((storage.scanIndexRowIds range).mergeSort fun left right => decide (left ≤ right))

/-- `prepare_key`: the candidates it leaves. -/
def prepareKey : Option Value -> Except Error (List Row)
  | none | some .null => .ok []
  | some key => if indexableProbe self.ty key then self.probe storage key
      else .ok (self.fallBack storage)

end IndexProbe

/-- Where the inner rows of a join come from. -/
inductive JoinInner where
  | materialised (rows : List Row) (width : Nat)
  | probe (probe : IndexProbe)
  | hash (table : HashJoinTable) (key : Nat)
  deriving DecidableEq, Repr

namespace JoinInner

/-- `prepare`: the candidates of an outer row. -/
def prepare (storage : Storage) (outer : Row) : JoinInner -> Except Error (List Row)
  | .materialised rows _ => .ok rows
  | .probe probed => probed.prepareKey storage outer[probed.key]?
  | .hash table key => .ok (table.candidates outer[key]?)

/-- How many columns an unmatched row of a `LEFT JOIN` is padded with. -/
def width : JoinInner -> Nat
  | .materialised _ width => width
  | .probe probed => probed.width
  | .hash table _ => table.width

def isHash : JoinInner -> Bool
  | .hash _ _ => true
  | _ => false

def hashCandidateMatches (outer row : Row) : JoinInner -> Option Bool
  | .hash table key => some (table.candidateMatches outer[key]? row)
  | _ => none

end JoinInner

def joinInner (storage : Storage) (cache : HashJoinCache) (inner : Table) (mask : ColumnMask) :
    JoinStrategy -> JoinInner
  | .hash outerKey innerKey collation =>
    .hash (hashJoinTable storage cache
      ⟨inner.name, mask, innerKey, inner.columns.length, collation⟩).1 outerKey
  | .probe key ty collation kind =>
    .probe ⟨inner.name, mask, inner.columns.length, key, ty, collation, kind⟩
  | .materialise =>
    .materialised ((storage.rows inner.name).map fun stored => mask.apply stored.2)
      inner.columns.length

/-! ## The pairing loops -/

inductive JoinKind where
  | inner
  | left
  deriving DecidableEq, Repr

/-- A row on its way through a plan; a score is given as its bits. -/
structure ExecRow where
  id : RowId
  score : Option UInt32
  values : Row
  deriving DecidableEq, Repr

/-- What a loop delivered, and the error that ended it. -/
structure Delivery (δ : Type) where
  rows : List δ
  failure : Option Error
  deriving DecidableEq, Repr

namespace Delivery

variable {δ : Type}

def done : Delivery δ := ⟨[], none⟩

def failed (error : Error) : Delivery δ := ⟨[], some error⟩

def push (row : δ) (rest : Delivery δ) : Delivery δ := { rest with rows := row :: rest.rows }

/-- What comes after, unless it failed. -/
def andThen (first rest : Delivery δ) : Delivery δ :=
  match first.failure with
  | some _ => first
  | none => ⟨first.rows ++ rest.rows, rest.failure⟩

end Delivery

/-- The loop over the candidates of one outer row; an unmatched one is padded by a
`LEFT JOIN`. -/
def pairRow {δ : Type} (kind : JoinKind) (keep : Row → Except Error Bool) (emit : Option Row → δ) :
    Bool -> List Row -> Delivery δ
  | matched, [] => if !matched && kind = .left then ⟨[emit none], none⟩ else .done
  | matched, row :: rest =>
    match keep row with
    | .error error => .failed error
    | .ok true => (pairRow kind keep emit true rest).push (emit (some row))
    | .ok false => pairRow kind keep emit matched rest

/-- The loop over the outer rows. -/
def pairRows {δ : Type} (kind : JoinKind) (prepare : Row -> Except Error (List Row))
    (keep : Row -> Row -> Except Error Bool) (emit : ExecRow -> Option Row -> δ) :
    List ExecRow -> Delivery δ
  | [] => .done
  | outer :: rest =>
    match prepare outer.values with
    | .error error => .failed error
    | .ok rows => (pairRow kind (keep outer.values) (emit outer) false rows).andThen
        (pairRows kind prepare keep emit rest)

/-- The outer row followed by an inner row, or by `NULL`s. -/
def joinedRow (width : Nat) (outer : ExecRow) (inner : Option Row) : ExecRow :=
  { outer with values := outer.values ++ inner.getD (List.replicate width .null) }

/-- Whether the `ON` keeps a pair. -/
def onKeeps (env : Env) (on : Option Expr) (outer row : Row) : Except Error Bool :=
  match on with
  | none => .ok true
  | some on => do return env.numerals.isTruthy (<- on.evaluate env (outer ++ row))

variable (storage : Storage) (env : Env) (on : Option Expr) (kind : JoinKind) (inner : JoinInner)

/-- The iterator of `NestedLoopJoin`. -/
def nestedLoopJoin : List ExecRow -> Delivery ExecRow :=
  pairRows kind (inner.prepare storage) (onKeeps env on) (joinedRow inner.width)

def tryForEachBorrowed (hashKeyIsFullOn : Bool) : List ExecRow -> Delivery ExecRow :=
  pairRows kind (inner.prepare storage)
    (fun outer row =>
      if hashKeyIsFullOn && on.isSome then .ok ((inner.hashCandidateMatches outer row).getD false)
      else onKeeps env on outer row)
    (joinedRow inner.width)

/-- `try_for_each_hash_pair`: the two halves, unpadded. -/
def tryForEachHashPair : List ExecRow -> Delivery (ExecRow × Option Row) :=
  pairRows kind (inner.prepare storage)
    (fun outer row => .ok ((inner.hashCandidateMatches outer row).getD false)) Prod.mk

/-- `BorrowedJoin::try_for_each`, over a probe. -/
def borrowedJoin (probe : IndexProbe) : List ExecRow -> Delivery ExecRow :=
  pairRows kind (fun outer => probe.prepareKey storage outer[probe.key]?) (onKeeps env on)
    (joinedRow probe.width)

end InlaySql.Sql
