import InlaySql.Btree.Page

/-!
# Write-ahead log: layout and records

The file is a header block, a state block, the log regions and the data area. A
commit record carries its sequence numbers, the root and page counter it produced
and an image of every page it wrote. From format version 6 on a page image leaves
out its longest run of zeros.
-/

namespace InlaySql.Wal

open Lib Btree

/-! ## Layout -/

def walBlocks : Nat := 256
def walRegions : Nat := 4
def multiRegionFormatVersion : Nat := 5
def holeElidedFormatVersion : Nat := 6
def maxPageImageLen : Nat := 2 ^ 20

def regionCount (formatVersion : Nat) : Nat :=
  if formatVersion ≥ multiRegionFormatVersion then walRegions else 1

def walRegionLen (pageSize : Nat) : Nat := walBlocks * pageSize

def headerOffset : Nat := 0

def stateOffset (pageSize : Nat) : Nat := pageSize

def walStart (pageSize : Nat) : Nat := 2 * pageSize

def regionStart (pageSize region : Nat) : Nat :=
  walStart pageSize + region * walRegionLen pageSize

def regionEnd (pageSize region : Nat) : Nat :=
  regionStart pageSize region + walRegionLen pageSize

/-- Where page `id` lives in the data area. -/
def dataOffsetFor (pageSize formatVersion : Nat) (id : Nat) : Nat :=
  (regionCount formatVersion * walBlocks + 1 + id) * pageSize

/-- The largest record a region holds. -/
def maxRecordLen (pageSize : Nat) : Nat := walRegionLen pageSize

/-! ## Checksum -/

/-- FNV-1a over 64 bits. -/
def fnv1a (bytes : Bytes) : UInt64 :=
  bytes.foldl (fun hash byte => (hash ^^^ byte.toUInt64) * 0x100000001B3) 0xcbf29ce484222325

/-- The checksum as the eight bytes a block stores. -/
def checksumBytes (bytes : Bytes) : Bytes := leBytes 8 (fnv1a bytes).toNat

/-! ## Records -/

/-- One committed transaction with an image of every page it wrote. -/
structure WalRecord where
  seq : Nat
  prevSeq : Nat
  prevRoot : Nat
  root : Nat
  next : Nat
  pages : List (Nat × Bytes)
  deriving DecidableEq, Repr

/-- The length of the run of zeros `bytes` starts with. -/
def zeroRun : Bytes -> Nat
  | [] => 0
  | byte :: rest => if byte = 0 then zeroRun rest + 1 else 0

/-- `longest_zero_run` from `at` on: the first longest run found so far. A run
already passed is not measured again, as in the source's two-step scan. -/
def longestZeroRunFrom : Bytes -> Nat -> Nat -> Nat × Nat -> Nat × Nat
  | [], _, _, best => best
  | byte :: rest, start, inside, best =>
    if byte = 0 ∧ inside = 0 then
      let length := zeroRun rest + 1
      longestZeroRunFrom rest (start + 1) (length - 1)
        (if length > best.2 then (start, length) else best)
    else longestZeroRunFrom rest (start + 1) (inside - 1) best

/-- The first longest run of zeros, as its start and length. -/
def longestZeroRun (bytes : Bytes) : Nat × Nat := longestZeroRunFrom bytes 0 0 (0, 0)

def pageEntryHeaderLen (formatVersion : Nat) : Nat :=
  if formatVersion ≥ holeElidedFormatVersion then 20 else 12

/-- One page of a record. -/
def encodePageEntry (formatVersion : Nat) (page : Nat × Bytes) : Bytes :=
  let (id, image) := page
  if formatVersion ≥ holeElidedFormatVersion then
    let (holeAt, holeLen) := longestZeroRun image
    leBytes 8 id ++ leBytes 4 (image.length - holeLen) ++ leBytes 4 holeAt ++
      leBytes 4 holeLen ++ image.take holeAt ++ image.drop (holeAt + holeLen)
  else leBytes 8 id ++ leBytes 4 image.length ++ image

/-- The fields of a record after its length and before its checksum. -/
def encodeRecordFields (formatVersion : Nat) (record : WalRecord) : Bytes :=
  leBytes 8 record.seq ++
    (if formatVersion ≥ multiRegionFormatVersion then
      leBytes 8 record.prevSeq ++ leBytes 8 record.prevRoot else []) ++
    leBytes 8 record.root ++ leBytes 8 record.next ++ leBytes 4 record.pages.length ++
    record.pages.flatMap (encodePageEntry formatVersion)

/-- `encode_record_onto`: length, fields and checksum. -/
def encodeRecord (formatVersion : Nat) (record : WalRecord) : Bytes :=
  let fields := encodeRecordFields formatVersion record
  let body := leBytes 4 (4 + fields.length + 8) ++ fields
  body ++ checksumBytes body

def readU32 (bytes : Bytes) (offset : Nat) : Nat := ofLe (slice bytes offset 4)

def readU64 (bytes : Bytes) (offset : Nat) : Nat := ofLe (slice bytes offset 8)

/-- The page entries of a record, up to its checksum. -/
def decodePageEntries (bytes : Bytes) (formatVersion checksumOffset : Nat) :
    Nat -> Nat -> Option (List (Nat × Bytes))
  | 0, offset => if offset = checksumOffset then some [] else none
  | count + 1, offset =>
    let entryHeader := pageEntryHeaderLen formatVersion
    if offset + entryHeader > checksumOffset then none
    else
      let id := readU64 bytes offset
      let stored := readU32 bytes (offset + 8)
      let (holeAt, holeLen) :=
        if formatVersion ≥ holeElidedFormatVersion then
          (readU32 bytes (offset + 12), readU32 bytes (offset + 16))
        else (stored, 0)
      let body := offset + entryHeader
      if body + stored > checksumOffset ∨ holeAt > stored ∨ stored + holeLen > maxPageImageLen
      then none
      else
        let image := slice bytes body holeAt ++ List.replicate holeLen 0 ++
          slice bytes (body + holeAt) (stored - holeAt)
        (decodePageEntries bytes formatVersion checksumOffset count (body + stored)).map
          ((id, image) :: ·)

/-- Where the page entries of a record start. -/
def pagesOffset (formatVersion : Nat) : Nat :=
  if formatVersion ≥ multiRegionFormatVersion then 48 else 32

def decodeRecordForVersion (bytes : Bytes) (formatVersion : Nat) : Option WalRecord :=
  let multi : Bool := formatVersion ≥ multiRegionFormatVersion
  let start := pagesOffset formatVersion
  if bytes.length < start + 8 then none
  else
    let total := readU32 bytes 0
    if total ≠ bytes.length ∨ total < start + 8 then none
    else
      let checksumOffset := total - 8
      if (fnv1a (bytes.take checksumOffset)).toNat ≠ readU64 bytes checksumOffset then none
      else
        let seq := readU64 bytes 4
        if seq = 0 then none
        else
          (decodePageEntries bytes formatVersion checksumOffset
            (readU32 bytes (start - 4)) start).map fun pages =>
            { seq
              prevSeq := if multi then readU64 bytes 12 else seq - 1
              prevRoot := if multi then readU64 bytes 20 else 0
              root := readU64 bytes (start - 20)
              next := readU64 bytes (start - 12)
              pages }

end InlaySql.Wal
