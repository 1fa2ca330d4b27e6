import InlaySql.Btree.Counter

/-!
# Metadata that commits merge

Four kinds of metadata keys never conflict: two counters that only grow, the write
version, and the change records numbered by it. A commit that finds them moved
merges its own values with the committed ones before it replays its operations.
-/

namespace InlaySql.Btree

open Lib

/-- The last operation of a transaction on each key: a value put, or a deletion. -/
abbrev PendingOps := Std.TreeMap Bytes (Option Bytes) bytesCmp

instance : Std.TransCmp bytesCmp := inferInstanceAs (Std.TransCmp (List.compareLex compare))

instance : Std.LawfulEqCmp bytesCmp :=
  inferInstanceAs (Std.LawfulEqCmp (List.compareLex (compare : UInt8 -> UInt8 -> Ordering)))

/-- The bytes of an ASCII text behind a zero byte. -/
def metaKey (text : List Char) : Bytes := 0 :: text.map fun c => UInt8.ofNat c.toNat

def nextRowIdMeta : Bytes := metaKey "next_row_id".toList
def writeVersionMeta : Bytes := metaKey "write_version".toList
def cdcFloorMeta : Bytes := metaKey "cdc_floor".toList
def cdcMetaPrefix : Bytes := metaKey "cdc:".toList

def mergeableMetadataKey (key : Bytes) : Bool :=
  key == nextRowIdMeta || key == writeVersionMeta || key == cdcFloorMeta ||
    cdcMetaPrefix.isPrefixOf key

def decodeCounter (bytes : Bytes) : Except Error Nat :=
  if bytes.length = 8 then .ok (ofLe bytes)
  else .error (.corrupt "monotonic metadata counter is not eight bytes")

/-- One hexadecimal digit. -/
def hexDigit (digit : Nat) : UInt8 := UInt8.ofNat (if digit < 10 then 48 + digit else 87 + digit)

/-- `width` hexadecimal digits, most significant first. -/
def hexDigits : Nat -> Nat -> Bytes
  | 0, _ => []
  | width + 1, value => hexDigits width (value / 16) ++ [hexDigit (value % 16)]

/-- The key of the change record of a write version. -/
def cdcKey (version : Nat) : Bytes := cdcMetaPrefix ++ hexDigits 16 version

/-- A counter the transaction puts; a deletion or no operation is none. -/
def pendingCounter (ops : PendingOps) (key : Bytes) : Except Error (Option Nat) :=
  match ops[key]? with
  | some (some bytes) => do return some (<- decodeCounter bytes)
  | _ => .ok none

/-- A committed counter, 0 when it was never written. -/
def currentCounter (look : Bytes -> Except Error (Option Bytes)) (key : Bytes) :
    Except Error Nat := do
  match <- look key with
  | some bytes => decodeCounter bytes
  | none => return 0

/-- `merge_max_counter`, with `get_at` under the committed root as `look`. -/
def mergeMaxCounter (look : Bytes -> Except Error (Option Bytes)) (ops : PendingOps)
    (key : Bytes) : Except Error PendingOps := do
  match <- pendingCounter ops key with
  | none => return ops
  | some pending =>
    let current <- currentCounter look key
    return ops.insert key (some (leBytes 8 (max pending current)))

/-- Move the change record of the pending write version to the rebased one. -/
def moveCdcRecord (ops : PendingOps) (pendingVersion rebasedVersion : Nat) : PendingOps :=
  match ops[cdcKey pendingVersion]? with
  | some record => (ops.erase (cdcKey pendingVersion)).insert (cdcKey rebasedVersion) record
  | none => ops

/-- `merge_monotonic_metadata`. The write version is a `u64`. -/
def mergeMonotonicMetadata (look : Bytes -> Except Error (Option Bytes)) (ops : PendingOps) :
    Except Error PendingOps := do
  let ops <- mergeMaxCounter look ops nextRowIdMeta
  let ops <- mergeMaxCounter look ops cdcFloorMeta
  match <- pendingCounter ops writeVersionMeta with
  | none => return ops
  | some pendingVersion =>
    let currentVersion <- currentCounter look writeVersionMeta
    let rebasedVersion := (currentVersion + 1) % 2 ^ 64
    let ops := ops.insert writeVersionMeta (some (leBytes 8 rebasedVersion))
    return moveCdcRecord ops pendingVersion rebasedVersion

/-! ## What the merge comes to -/

/-- The counter a committed value stands for. -/
def counterOf (value : Option Bytes) : Nat := (value.map ofLe).getD 0

/-- An operation on a counter that only grows puts the larger of the two values. -/
def maxedOp (current : Bytes -> Option Bytes) (key : Bytes) : Option (Option Bytes) ->
    Option (Option Bytes)
  | some (some bytes) => some (some (leBytes 8 (max (ofLe bytes) (counterOf (current key)))))
  | op => op

/-- The operations with both growing counters merged. -/
def maxedOps (ops : Bytes -> Option (Option Bytes)) (current : Bytes -> Option Bytes)
    (key : Bytes) : Option (Option Bytes) :=
  if key = nextRowIdMeta ∨ key = cdcFloorMeta then maxedOp current key (ops key) else ops key

/-- The write version a commit on top of `current` gets. -/
def nextVersion (current : Bytes -> Option Bytes) : Nat :=
  (counterOf (current writeVersionMeta) + 1) % 2 ^ 64

/-- The operations a commit replays: counters merged, the write version one past the
committed one, and the change record of the pending version under the new one. -/
def rebasedOps (ops : Bytes -> Option (Option Bytes)) (current : Bytes -> Option Bytes)
    (key : Bytes) : Option (Option Bytes) :=
  match ops writeVersionMeta with
  | some (some bytes) =>
    if key = writeVersionMeta then some (some (leBytes 8 (nextVersion current)))
    else if (ops (cdcKey (ofLe bytes))).isSome ∧ key = cdcKey (nextVersion current) then
      ops (cdcKey (ofLe bytes))
    else if key = cdcKey (ofLe bytes) then none
    else maxedOps ops current key
  | _ => maxedOps ops current key

/-- The committed contents after a commit of `ops` on top of `current`. -/
def overlaid (ops : Bytes -> Option (Option Bytes)) (current : Bytes -> Option Bytes)
    (key : Bytes) : Option Bytes :=
  (rebasedOps ops current key).getD (current key)

section Merge

variable {look : Bytes -> Except Error (Option Bytes)} {current : Bytes -> Option Bytes}
  {ops after : PendingOps} {key : Bytes}

theorem getElem?_insert (ops : PendingOps) (key : Bytes) (op : Option Bytes) (other : Bytes) :
    (ops.insert key op)[other]? = if other = key then some op else ops[other]? := by
  simp only [Std.TreeMap.getElem?_insert, Std.LawfulEqCmp.compare_eq_iff_eq, eq_comm (a := key)]

theorem getElem?_erase (ops : PendingOps) (key other : Bytes) :
    (ops.erase key)[other]? = if other = key then none else ops[other]? := by
  simp only [Std.TreeMap.getElem?_erase, Std.LawfulEqCmp.compare_eq_iff_eq, eq_comm (a := key)]

theorem decodeCounter_eq {bytes : Bytes} {counter : Nat}
    (decoded : decodeCounter bytes = .ok counter) : counter = ofLe bytes ∧ bytes.length = 8 := by
  unfold decodeCounter at decoded
  split at decoded
  · rename_i length
    cases decoded
    exact ⟨rfl, length⟩
  · cases decoded

theorem pendingCounter_eq {found : Option Nat} (read : pendingCounter ops key = .ok found) :
    (∃ bytes, ops[key]? = some (some bytes) ∧ found = some (ofLe bytes)) ∨
      ((∀ bytes, ops[key]? ≠ some (some bytes)) ∧ found = none) := by
  unfold pendingCounter at read
  split at read
  · rename_i bytes isPut
    obtain ⟨counter, decoded, result⟩ := bind_eq_ok read
    cases result
    exact .inl ⟨bytes, isPut, by rw [(decodeCounter_eq decoded).1]⟩
  · rename_i notPut
    cases read
    exact .inr ⟨notPut, rfl⟩

section

variable (reads : ∀ key, look key = .ok (current key))

include reads

theorem currentCounter_eq {counter : Nat} (read : currentCounter look key = .ok counter) :
    counter = counterOf (current key) := by
  unfold currentCounter at read
  rw [reads key] at read
  cases found : current key with
  | none =>
    rw [found] at read
    cases read
    rfl
  | some bytes =>
    rw [found] at read
    exact (decodeCounter_eq read).1

theorem mergeMaxCounter_eq (merged : mergeMaxCounter look ops key = .ok after) (other : Bytes) :
    after[other]? = if other = key then maxedOp current key ops[key]? else ops[other]? := by
  obtain ⟨found, isFound, rest⟩ := bind_eq_ok merged
  rcases pendingCounter_eq isFound with ⟨bytes, isPut, rfl⟩ | ⟨notPut, rfl⟩
  · obtain ⟨counter, isCounter, result⟩ := bind_eq_ok rest
    cases result
    rw [getElem?_insert, isPut, currentCounter_eq reads isCounter]
    rfl
  · cases rest
    by_cases same : other = key
    · subst same
      rw [if_pos rfl]
      unfold maxedOp
      split
      · rename_i bytes isPut
        exact absurd isPut (notPut bytes)
      · rfl
    · rw [if_neg same]

end

theorem moveCdcRecord_eq (ops : PendingOps) (pending rebased : Nat) (other : Bytes) :
    (moveCdcRecord ops pending rebased)[other]? =
      if ops[cdcKey pending]?.isSome ∧ other = cdcKey rebased then ops[cdcKey pending]?
      else if other = cdcKey pending then none else ops[other]? := by
  unfold moveCdcRecord
  cases found : ops[cdcKey pending]? with
  | none =>
    simp only [Option.isSome_none, Bool.false_eq_true, false_and, if_false]
    split
    · rename_i same
      rw [same, found]
    · rfl
  | some record =>
    simp only [getElem?_insert, getElem?_erase, Option.isSome_some, true_and]

theorem meta_distinct : writeVersionMeta ≠ nextRowIdMeta ∧ writeVersionMeta ≠ cdcFloorMeta ∧
    nextRowIdMeta ≠ cdcFloorMeta := by decide

theorem cdcKey_distinct (version : Nat) : cdcKey version ≠ writeVersionMeta ∧
    cdcKey version ≠ nextRowIdMeta ∧ cdcKey version ≠ cdcFloorMeta := by
  refine ⟨?_, ?_, ?_⟩ <;>
  · intro same
    have fifth := congrArg (·[4]?) same
    simp [cdcKey, cdcMetaPrefix, writeVersionMeta, nextRowIdMeta, cdcFloorMeta, metaKey] at fifth

theorem mergeMonotonicMetadata_eq (reads : ∀ key, look key = .ok (current key))
    (merged : mergeMonotonicMetadata look ops = .ok after) (key : Bytes) :
    after[key]? = rebasedOps (ops[·]?) current key := by
  obtain ⟨rowed, isRowed, rest⟩ := bind_eq_ok merged
  obtain ⟨floored, isFloored, rest⟩ := bind_eq_ok rest
  obtain ⟨versionNext, versionFloor, nextFloor⟩ := meta_distinct
  have maxed : ∀ other : Bytes, floored[other]? = maxedOps (ops[·]?) current other := by
    intro other
    rw [mergeMaxCounter_eq reads isFloored, mergeMaxCounter_eq reads isRowed,
      mergeMaxCounter_eq reads isRowed, maxedOps]
    by_cases isNext : other = nextRowIdMeta
    · subst isNext
      simp [nextFloor]
    · by_cases isFloor : other = cdcFloorMeta
      · subst isFloor
        simp [nextFloor.symm]
      · simp [isNext, isFloor]
  have plain : ∀ other, other ≠ nextRowIdMeta -> other ≠ cdcFloorMeta ->
      floored[other]? = ops[other]? := by
    intro other notNext notFloor
    rw [maxed, maxedOps, if_neg (by simp [notNext, notFloor])]
  have version := plain writeVersionMeta versionNext versionFloor
  obtain ⟨found, isFound, rest⟩ := bind_eq_ok rest
  rcases pendingCounter_eq isFound with ⟨bytes, isPut, rfl⟩ | ⟨notPut, rfl⟩
  · obtain ⟨counter, isCounter, result⟩ := bind_eq_ok rest
    cases result
    obtain ⟨notVersion, notNext, notFloor⟩ := cdcKey_distinct (ofLe bytes)
    obtain ⟨newVersion, -, -⟩ := cdcKey_distinct (nextVersion current)
    rw [version] at isPut
    simp only [rebasedOps, isPut]
    rw [currentCounter_eq reads isCounter]
    change (moveCdcRecord (floored.insert writeVersionMeta
      (some (leBytes 8 (nextVersion current)))) (ofLe bytes) (nextVersion current))[key]? = _
    rw [moveCdcRecord_eq, getElem?_insert, getElem?_insert, if_neg notVersion,
      plain _ notNext notFloor, maxed]
    by_cases isVersion : key = writeVersionMeta
    · subst isVersion
      simp [newVersion.symm, notVersion.symm]
    · simp [isVersion]
  · cases rest
    rw [maxed]
    unfold rebasedOps
    split
    · rename_i bytes isPut
      rw [version] at notPut
      exact absurd isPut (notPut bytes)
    · rfl

end Merge

end InlaySql.Btree
