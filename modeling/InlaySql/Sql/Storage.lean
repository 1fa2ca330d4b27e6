import InlaySql.Sql.Catalog

/-!
# The storage surface

What the engine sees of a storage backend: rows by table and row id, rows by table
and key, index entries and metadata, each in a namespace of its own. A handle reads
the contents it last adopted overlaid with its own writes, which are buffered until
`commit`. Rows of temporary tables are routed to a store of their own.
-/

namespace InlaySql.Sql

open Lib

/-- What happened to a row, for the change log. -/
inductive ChangeKind where
  | insert
  | update
  | delete
  deriving DecidableEq, Repr

/-- One changed row: its table, its id and what happened. -/
abbrev Change := String × RowId × ChangeKind

/-- What a value is stored under. -/
inductive StoreKey where
  | named (name : String)
  | row (table : String) (id : RowId)
  | keyed (table : String) (key : Bytes)
  | entry (key : Bytes)
  deriving DecidableEq, Repr

namespace StoreKey

/-- The namespace a key belongs to. -/
def space : StoreKey -> Nat
  | .named _ => 0
  | .row _ _ => 1
  | .keyed _ _ => 2
  | .entry _ => 3

def label : StoreKey -> String
  | .named name => name
  | .row table _ | .keyed table _ => table
  | .entry _ => ""

def number : StoreKey -> Nat
  | .row _ id => id
  | _ => 0

def bytes : StoreKey -> Bytes
  | .keyed _ key | .entry key => key
  | _ => []

/-- Keys in order: by namespace, then name, row id and bytes. -/
def cmp : StoreKey -> StoreKey -> Ordering :=
  compareLex (compareOn space) (compareLex (compareOn label)
    (compareLex (compareOn number) (compareOn bytes)))

instance : Std.TransCmp cmp :=
  inferInstanceAs (Std.TransCmp (compareLex (compareOn space) (compareLex (compareOn label)
    (compareLex (compareOn number) (compareOn bytes)))))

instance : Std.LawfulEqCmp cmp where
  eq_of_compare {left right} same := by
    simp only [cmp, compareLex_eq_eq, compareOn, Std.LawfulEqOrd.compare_eq_iff_eq] at same
    obtain ⟨space, label, number, bytes⟩ := same
    cases left <;> cases right <;> simp_all [StoreKey.space, StoreKey.label, StoreKey.number,
      StoreKey.bytes]

end StoreKey

/-- What is stored, decoded. An index entry has no value of its own. -/
inductive StoreValue where
  | row (values : Row)
  | entry
  | catalog (catalog : Catalog)
  | counter (value : Nat)
  | changes (changes : List Change)
  | bytes (bytes : Bytes)
  deriving DecidableEq

/-- The contents of a database. -/
abbrev Contents := Std.ExtTreeMap StoreKey StoreValue StoreKey.cmp

/-- The operations of a transaction, the last one on each key. -/
abbrev StoreOps := Std.ExtTreeMap StoreKey (Option StoreValue) StoreKey.cmp

/-- A handle on a store: the committed contents it reads, the same with its own writes,
and those writes. -/
structure Store where
  base : Contents
  working : Contents
  ops : StoreOps
  deriving DecidableEq

namespace Store

def opened (contents : Contents) : Store := ⟨contents, contents, ∅⟩

def get (self : Store) (key : StoreKey) : Option StoreValue := self.working[key]?

def put (self : Store) (key : StoreKey) (value : StoreValue) : Store :=
  { self with working := self.working.insert key value, ops := self.ops.insert key (some value) }

def delete (self : Store) (key : StoreKey) : Store :=
  { self with working := self.working.erase key, ops := self.ops.insert key none }

/-- `rollback`: the buffered writes are dropped. -/
def rollback (self : Store) : Store := opened self.base

end Store

/-- `TempTableRouter`: the durable store, and the store of the temporary tables, which
are routed by name. -/
structure Storage where
  main : Store
  temp : Store
  tempTables : List String
  deriving DecidableEq

namespace Storage

def opened (contents : Contents) : Storage := ⟨.opened contents, .opened ∅, []⟩

def isTemp (self : Storage) (table : String) : Bool := self.tempTables.contains (lower table)

/-- The store that holds a table's rows. -/
def side (self : Storage) (table : String) : Store :=
  if self.isTemp table then self.temp else self.main

/-- Change the store that holds a table's rows. -/
def onSide (self : Storage) (table : String) (change : Store -> Store) : Storage :=
  if self.isTemp table then { self with temp := change self.temp }
  else { self with main := change self.main }

def putRow (self : Storage) (table : String) (id : RowId) (row : Row) : Storage :=
  self.onSide table (·.put (.row (lower table) id) (.row row))

/-- The row a stored value is. -/
def asRow : StoreValue -> Option Row
  | .row values => some values
  | _ => none

def getRow (self : Storage) (table : String) (id : RowId) : Option Row :=
  ((self.side table).get (.row (lower table) id)).bind asRow

def deleteRow (self : Storage) (table : String) (id : RowId) : Storage :=
  self.onSide table (·.delete (.row (lower table) id))

/-- One row of a table, if that is what is stored. -/
def rowOf (table : String) : StoreKey × StoreValue -> Option (RowId × Row)
  | (.row name id, .row values) => if name = lower table then some (id, values) else none
  | _ => none

/-- The rows of a table, in row-id order. -/
def rows (self : Storage) (table : String) : List (RowId × Row) :=
  (self.side table).working.toList.filterMap (rowOf table)

def putRowKeyed (self : Storage) (table : String) (key : Bytes) (row : Row) : Storage :=
  self.onSide table (·.put (.keyed (lower table) key) (.row row))

def getRowKeyed (self : Storage) (table : String) (key : Bytes) : Option Row :=
  ((self.side table).get (.keyed (lower table) key)).bind asRow

def deleteRowKeyed (self : Storage) (table : String) (key : Bytes) : Storage :=
  self.onSide table (·.delete (.keyed (lower table) key))

/-- One keyed row of a table, if that is what is stored. -/
def keyedRowOf (table : String) : StoreKey × StoreValue -> Option (Bytes × Row)
  | (.keyed name key, .row values) => if name = lower table then some (key, values) else none
  | _ => none

/-- `scan_all_keyed`: the rows of a `WITHOUT ROWID` table, in key order. -/
def keyedRows (self : Storage) (table : String) : List (Bytes × Row) :=
  (self.side table).working.toList.filterMap (keyedRowOf table)

def putMeta (self : Storage) (name : String) (value : StoreValue) : Storage :=
  { self with main := self.main.put (.named name) value }

def getMeta (self : Storage) (name : String) : Option StoreValue := self.main.get (.named name)

def putIndexEntry (self : Storage) (key : Bytes) : Storage :=
  { self with main := self.main.put (.entry key) .entry }

def deleteIndexEntry (self : Storage) (key : Bytes) : Storage :=
  { self with main := self.main.delete (.entry key) }

/-- An index entry, if that is what is stored. -/
def entryOf : StoreKey × StoreValue -> Option Bytes
  | (.entry key, _) => some key
  | _ => none

/-- The index entries, in key order. -/
def entries (self : Storage) : List Bytes := self.main.working.toList.filterMap entryOf

def scanIndexRange (self : Storage) (range : KeyRange) : List Bytes :=
  self.entries.filter range.contains

/-- The row id an entry key ends with. -/
def rowIdOfEntry (key : Bytes) : RowId := ofLe (key.reverse.take 8)

def scanIndexRowIds (self : Storage) (range : KeyRange) : List RowId :=
  (self.scanIndexRange range).map rowIdOfEntry

def rollback (self : Storage) : Storage :=
  { self with main := self.main.rollback, temp := self.temp.rollback }

def setTempTable (self : Storage) (table : String) (temporary : Bool) : Storage :=
  { self with tempTables :=
      if temporary then (self.tempTables.filter (· ≠ lower table)) ++ [lower table]
      else self.tempTables.filter (· ≠ lower table) }

/-! ## What a scan yields -/

section Scans

variable {storage : Storage} {table : String}

theorem rowOf_eq_some {binding : StoreKey × StoreValue} {stored : RowId × Row} :
    rowOf table binding = some stored ↔
      binding = (.row (lower table) stored.1, .row stored.2) := by
  obtain ⟨key, value⟩ := binding
  obtain ⟨id, row⟩ := stored
  cases key <;> cases value <;> simp [rowOf]
  constructor
  · rintro ⟨rfl, rfl, rfl⟩
    exact ⟨⟨rfl, rfl⟩, rfl⟩
  · rintro ⟨⟨rfl, rfl⟩, rfl⟩
    exact ⟨rfl, rfl, rfl⟩

theorem mem_rows {stored : RowId × Row} :
    stored ∈ storage.rows table ↔ storage.getRow table stored.1 = some stored.2 := by
  simp only [rows, List.mem_filterMap, rowOf_eq_some, exists_eq_right,
    Std.ExtTreeMap.mem_toList_iff_getElem?_eq_some]
  rw [getRow, Store.get, Option.bind_eq_some_iff]
  constructor
  · intro found
    exact ⟨_, found, rfl⟩
  · rintro ⟨value, found, isRow⟩
    cases value with
    | row values => rw [found, Option.some.inj isRow]
    | _ => cases isRow

theorem pairwise_rows : (storage.rows table).Pairwise (·.1 < ·.1) := by
  refine List.Pairwise.filterMap _ ?_ (storage.side table).working.ordered_keys_toList
  intro left right less stored isStored other isOther
  rw [rowOf_eq_some.mp isStored, rowOf_eq_some.mp isOther] at less
  simpa [StoreKey.cmp, compareLex, compareOn, StoreKey.space, StoreKey.label, StoreKey.number,
    StoreKey.bytes, Nat.compare_eq_lt, Ordering.then_eq_lt] using less

theorem nodup_entries : storage.entries.Nodup := by
  refine List.Pairwise.filterMap _ ?_ storage.main.working.distinct_keys_toList
  intro left right apart key isKey other isOther same
  obtain ⟨leftKey, leftValue⟩ := left
  obtain ⟨rightKey, rightValue⟩ := right
  cases leftKey <;> cases isKey
  cases rightKey <;> cases isOther
  subst same
  exact apart (Std.ReflCmp.compare_self)

end Scans

end Storage

end InlaySql.Sql
