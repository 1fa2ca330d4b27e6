import InlaySql.Lib.Image
import InlaySql.Wal.Record

/-!
# The committed state of a file

The state block names a committed root and the sequence number it was taken at; the
log regions hold the commits since. Recovery reads the state block, scans every
region for valid records and walks the chain of those that follow it. When the block
is torn the newest self-contained chain of the log stands in for it.
-/

namespace InlaySql.Wal

open Lib Btree

/-! ## Header and state block -/

def headerLen : Nat := 24
def stateLen : Nat := 32
def formatVersion : Nat := 6
def minReadableFormatVersion : Nat := 3
def minPageSize : Nat := 64

/-- The ASCII bytes of `INLAYSQL`. -/
def magic : Bytes := [73, 78, 76, 65, 89, 83, 81, 76]

/-- `encode_header_with_version`. -/
def encodeHeader (pageSize version : Nat) : Bytes :=
  let body := magic ++ leBytes 4 pageSize ++ leBytes 4 version
  body ++ checksumBytes body

/-- `parse_header`: the page size and format version. -/
def parseHeader (bytes : Bytes) : Except Error (Nat × Nat) :=
  if bytes.length < headerLen then .error (.corrupt "header is truncated")
  else if bytes.take 8 ≠ magic then .error (.corrupt "not an InlaySQL database")
  else if (fnv1a (bytes.take 16)).toNat ≠ readU64 bytes 16 then
    .error (.corrupt "header checksum mismatch (torn write?)")
  else
    let pageSize := readU32 bytes 8
    let version := readU32 bytes 12
    if version > formatVersion then
      .error (.formatVersion s!"file format version {version} is newer than this build supports ({formatVersion}); upgrade InlaySQL")
    else if version < minReadableFormatVersion then
      .error (.formatVersion s!"file format version {version} is older than this build supports ({minReadableFormatVersion}..={formatVersion}); recreate the database")
    else if pageSize < minPageSize then
      .error (.corrupt s!"page size {pageSize} below the minimum")
    else .ok (pageSize, version)

/-- A committed state: its root, page counter and sequence number. -/
structure Point where
  root : Nat
  next : Nat
  seq : Nat
  deriving DecidableEq, Repr

def encodeState (point : Point) : Bytes :=
  let body := leBytes 8 point.root ++ leBytes 8 point.next ++ leBytes 8 point.seq
  body ++ checksumBytes body

/-- `parse_state`; `none` means torn. -/
def parseState (bytes : Bytes) : Option Point :=
  if bytes.length < stateLen then none
  else if (fnv1a (bytes.take 24)).toNat ≠ readU64 bytes 24 then none
  else some { root := readU64 bytes 0, next := readU64 bytes 8, seq := readU64 bytes 16 }

def readState (image : Image) (pageSize : Nat) : Option Point :=
  parseState (image.read (stateOffset pageSize) stateLen)

/-! ## Scanning the regions -/

/-- The loop of `scan_region` from `offset` on: the valid records and where the next
one goes. -/
def scanLoop (image : Image) (version stop : Nat) : Nat -> Nat -> List WalRecord × Nat
  | 0, offset => ([], offset)
  | turns + 1, offset =>
    if offset + 12 ≤ stop then
      let total := readU32 (image.read offset 4) 0
      if total = 0 ∨ total < pagesOffset version + 8 ∨ offset + total > stop then ([], offset)
      else
        match decodeRecordForVersion (image.read offset total) version with
        | some record =>
          let rest := scanLoop image version stop turns (offset + total)
          (record :: rest.1, rest.2)
        | none => ([], offset)
    else ([], offset)

/-- `scan_region`. A record is longer than a byte, so the loop has turns enough. -/
def scanRegion (image : Image) (pageSize version region : Nat) : List WalRecord × Nat :=
  scanLoop image version (regionEnd pageSize region) (walRegionLen pageSize)
    (regionStart pageSize region)

/-- `scan_all`: the records of every region in commit order. -/
def scanAll (image : Image) (pageSize version : Nat) : List WalRecord :=
  ((List.range (regionCount version)).flatMap fun region =>
    (scanRegion image pageSize version region).1).mergeSort fun first second =>
      first.seq ≤ second.seq

/-! ## The committed state -/

/-- The state a record commits. -/
def WalRecord.point (record : WalRecord) : Point := ⟨record.root, record.next, record.seq⟩

/-- Whether a record continues a committed state. -/
def follows (version : Nat) (point : Point) (record : WalRecord) : Bool :=
  record.seq == point.seq + 1 &&
    (decide (version < multiRegionFormatVersion) ||
      record.prevSeq == point.seq && record.prevRoot == point.root)

/-- Walk forward from a committed state until a record does not follow: the state
reached and the records on the way. -/
def walkChain (version : Nat) : Point -> List WalRecord -> Point × List WalRecord
  | point, [] => (point, [])
  | point, record :: records =>
    if follows version point record then
      let rest := walkChain version record.point records
      (rest.1, record :: rest.2)
    else (point, [])

/-- Of two chains the one that ends later, the first when they tie. -/
def newer (best chain : List WalRecord) : List WalRecord :=
  match chain.getLast? with
  | none => best
  | some last =>
    match best.getLast? with
    | none => chain
    | some winner => if last.seq > winner.seq then chain else best

/-- The loop over the log when the state block is torn, with the best chain so far
and the one being built. -/
def bestChain (version : Nat) : List WalRecord -> List WalRecord -> List WalRecord ->
    List WalRecord
  | best, chain, [] => newer best chain
  | best, chain, record :: records =>
    match chain.getLast? with
    | some previous =>
      if follows version previous.point record then
        bestChain version best (chain ++ [record]) records
      else bestChain version (newer best chain) [record] records
    | none => bestChain version (newer best chain) [record] records

/-- The second half of `read_committed_state`, over what was read. -/
def committedState (version : Nat) (state : Option Point) (records : List WalRecord) :
    Except Error (Point × List WalRecord) :=
  match state with
  | some state => .ok (walkChain version state (records.filter fun record => record.seq > state.seq))
  | none =>
    let best := bestChain version [] [] records
    match best.getLast? with
    | some newest => .ok (newest.point, best)
    | none => .error (.corrupt
        "no recoverable state: the state block is torn and every WAL region is empty")

/-- `read_committed_state`: the committed state and the records to replay. -/
def readCommittedState (image : Image) (pageSize version : Nat) :
    Except Error (Point × List WalRecord) :=
  committedState version (readState image pageSize) (scanAll image pageSize version)

/-! ## What the reads depend on -/

section Reads

variable {image later : Image} {pageSize version : Nat}

theorem scanLoop_congr {stop start : Nat}
    (same : ∀ address, start ≤ address -> address < stop -> later.byte address = image.byte address)
    (turns : Nat) {offset : Nat} (within : start ≤ offset) :
    scanLoop later version stop turns offset = scanLoop image version stop turns offset := by
  induction turns generalizing offset with
  | zero => rfl
  | succ turns ih =>
    unfold scanLoop
    by_cases room : offset + 12 ≤ stop
    · have header : later.read offset 4 = image.read offset 4 :=
        Image.read_congr fun address low high => same address (by omega) (by omega)
      rw [if_pos room, if_pos room, header]
      by_cases ends : readU32 (image.read offset 4) 0 = 0 ∨
          readU32 (image.read offset 4) 0 < pagesOffset version + 8 ∨
          offset + readU32 (image.read offset 4) 0 > stop
      · simp only [if_pos ends]
      · have body : later.read offset (readU32 (image.read offset 4) 0) =
            image.read offset (readU32 (image.read offset 4) 0) :=
          Image.read_congr fun address low high => same address (by omega) (by omega)
        have rest := ih (show start ≤ offset + readU32 (image.read offset 4) 0 by omega)
        simp only [if_neg ends, body, rest]
    · rw [if_neg room, if_neg room]

theorem scanRegion_congr {region : Nat} (same : ∀ address, regionStart pageSize region ≤ address ->
      address < regionEnd pageSize region -> later.byte address = image.byte address) :
    scanRegion later pageSize version region = scanRegion image pageSize version region :=
  scanLoop_congr same _ le_rfl

theorem scanAll_congr (same : ∀ address, walStart pageSize ≤ address ->
      address < regionEnd pageSize 3 -> later.byte address = image.byte address) :
    scanAll later pageSize version = scanAll image pageSize version := by
  unfold scanAll
  congr 1
  apply List.flatMap_congr
  intro region member
  have count : region < 4 := by
    have few : regionCount version ≤ 4 := by
      unfold regionCount
      split <;> decide
    have := List.mem_range.mp member
    omega
  congr 1
  apply scanRegion_congr
  intro address low high
  apply same address
  · exact le_trans (Nat.le_add_right _ _) low
  · refine lt_of_lt_of_le high ?_
    simp only [regionEnd, regionStart]
    have := Nat.mul_le_mul_right (walRegionLen pageSize) (show region ≤ 3 by omega)
    omega

end Reads

/-! ## Chains -/

section Chains

variable (version : Nat)

variable {best chain : List WalRecord} {last : WalRecord}

theorem newer_of_lt (ends : chain.getLast? = some last)
    (later : ∀ winner, best.getLast? = some winner -> winner.seq < last.seq) :
    newer best chain = chain := by
  unfold newer
  rw [ends]
  cases found : best.getLast? with
  | none => rfl
  | some winner => simp only [if_pos (later winner found)]

theorem newer_seq {bound : Nat}
    (before : ∀ winner, best.getLast? = some winner -> winner.seq < bound)
    (building : ∀ winner, chain.getLast? = some winner -> winner.seq < bound) :
    ∀ winner, (newer best chain).getLast? = some winner -> winner.seq < bound := by
  unfold newer
  split
  · exact before
  · split
    · exact building
    · split
      · exact building
      · exact before

theorem bestChain_getLast {front : List WalRecord}
    (before : ∀ winner, best.getLast? = some winner -> winner.seq < last.seq)
    (building : ∀ winner, chain.getLast? = some winner -> winner.seq < last.seq)
    (older : ∀ record ∈ front, record.seq < last.seq) :
    (bestChain version best chain (front ++ [last])).getLast? = some last := by
  induction front generalizing best chain with
  | nil =>
    have restart : newer (newer best chain) [last] = [last] :=
      newer_of_lt rfl (newer_seq before building)
    simp only [List.nil_append, bestChain]
    split
    · split
      · rw [newer_of_lt (by simp) before]
        simp
      · rw [restart]
        rfl
    · rw [restart]
      rfl
  | cons record front ih =>
    have here := older record (by simp)
    have rest : ∀ other ∈ front, other.seq < last.seq := fun other member =>
      older other (List.mem_cons_of_mem _ member)
    have single : ∀ winner, [record].getLast? = some winner -> winner.seq < last.seq := by
      intro winner found
      cases found
      exact here
    rw [List.cons_append, bestChain]
    split
    · split
      · apply ih before _ rest
        intro winner found
        rw [List.getLast?_concat] at found
        cases found
        exact here
      · exact ih (newer_seq before building) single rest
    · exact ih (newer_seq before building) single rest

end Chains

section Recovered

variable {version : Nat}

theorem seq_of_follows {point : Point} {record : WalRecord}
    (continues : follows version point record = true) : record.seq = point.seq + 1 := by
  simp only [follows, Bool.and_eq_true, beq_iff_eq] at continues
  exact continues.1

/-- Each record continues the state its predecessor commits. -/
def Chained (version : Nat) (records : List WalRecord) : Prop :=
  records.IsChain fun before after => follows version before.point after = true

/-- A walk takes a chain from the front of the records and ends at its last one. -/
theorem walkChain_chained (point : Point) (records : List WalRecord) :
    Chained version (walkChain version point records).2 ∧
      (walkChain version point records).2 <+: records ∧
      (∀ first ∈ (walkChain version point records).2.head?, follows version point first = true) ∧
      (walkChain version point records).1 =
        ((walkChain version point records).2.getLast?.map WalRecord.point).getD point := by
  induction records generalizing point with
  | nil => exact ⟨.nil, List.prefix_rfl, by simp [walkChain], rfl⟩
  | cons record records ih =>
    unfold walkChain
    split
    · rename_i continues
      obtain ⟨chained, front, head, ends⟩ := ih record.point
      refine ⟨List.isChain_cons.mpr ⟨head, chained⟩, (List.prefix_cons_inj record).mpr front,
        by simpa using continues, ?_⟩
      simp only [ends, List.getLast?_cons]
      cases (walkChain version record.point records).2.getLast? <;> rfl
    · exact ⟨.nil, List.nil_prefix, by simp, rfl⟩

/-- `newer` gives one of the two chains, and one that ends no earlier than either. -/
theorem newer_cases (best chain : List WalRecord) :
    (newer best chain = best ∨ newer best chain = chain) ∧ ∀ record,
      record ∈ best.getLast? ∨ record ∈ chain.getLast? ->
        ∃ last ∈ (newer best chain).getLast?, record.seq ≤ last.seq := by
  unfold newer
  cases ends : chain.getLast? with
  | none => exact ⟨.inl rfl, fun record found => ⟨record, by simpa using found, le_rfl⟩⟩
  | some last =>
    cases wins : best.getLast? with
    | none => exact ⟨.inr rfl, by simp [ends]⟩
    | some winner =>
      simp only
      split
      · refine ⟨.inr rfl, ?_⟩
        rintro record (⟨⟨⟩⟩ | ⟨⟨⟩⟩)
        · exact ⟨last, ends, by omega⟩
        · exact ⟨last, ends, le_rfl⟩
      · refine ⟨.inl rfl, ?_⟩
        rintro record (⟨⟨⟩⟩ | ⟨⟨⟩⟩)
        · exact ⟨winner, wins, le_rfl⟩
        · exact ⟨winner, wins, by omega⟩

/-- The best chain is one of records of the log, and ends no earlier than any of them. -/
theorem bestChain_chained {best chain : List WalRecord} (records : List WalRecord)
    (bestChained : Chained version best) (chained : Chained version chain) :
    Chained version (bestChain version best chain records) ∧
      (∀ record ∈ bestChain version best chain records,
        record ∈ best ∨ record ∈ chain ∨ record ∈ records) ∧
      ∀ record, record ∈ best.getLast? ∨ record ∈ chain.getLast? ∨ record ∈ records ->
        ∃ last ∈ (bestChain version best chain records).getLast?, record.seq ≤ last.seq := by
  induction records generalizing best chain with
  | nil =>
    obtain ⟨isOne, later⟩ := newer_cases best chain
    refine ⟨?_, fun record member => ?_, fun record found => later record (by simpa using found)⟩
    · rcases isOne with same | same <;> simpa [bestChain, same]
    · rcases isOne with same | same <;> simp_all [bestChain]
  | cons first records ih =>
    obtain ⟨isOne, later⟩ := newer_cases best chain
    have newerChained : Chained version (newer best chain) := by
      rcases isOne with same | same <;> simpa [same]
    -- The chain being built ends here and a new one begins.
    have restart : Chained version (bestChain version (newer best chain) [first] records) ∧
        (∀ record ∈ bestChain version (newer best chain) [first] records,
          record ∈ best ∨ record ∈ chain ∨ record ∈ first :: records) ∧
        ∀ record, record ∈ best.getLast? ∨ record ∈ chain.getLast? ∨ record ∈ first :: records ->
          ∃ last ∈ (bestChain version (newer best chain) [first] records).getLast?,
            record.seq ≤ last.seq := by
      obtain ⟨whole, members, ends⟩ := ih newerChained (.singleton first)
      refine ⟨whole, fun record member => ?_, fun record found => ?_⟩
      · rcases members record member with inNewer | isFirst | inRest
        · rcases isOne with same | same <;> simp_all
        · simp_all
        · simp_all
      · have ended (found : record ∈ best.getLast? ∨ record ∈ chain.getLast?) :
            ∃ last ∈ (bestChain version (newer best chain) [first] records).getLast?,
              record.seq ≤ last.seq := by
          obtain ⟨winner, wins, le⟩ := later record found
          obtain ⟨last, isLast, more⟩ := ends winner (.inl wins)
          exact ⟨last, isLast, le.trans more⟩
        rcases found with inBest | inChain | inRecords
        · exact ended (.inl inBest)
        · exact ended (.inr inChain)
        · rcases List.mem_cons.mp inRecords with rfl | inRest
          · exact ends record (.inr (.inl rfl))
          · exact ends record (.inr (.inr inRest))
    unfold bestChain
    split
    · rename_i previous isPrevious
      split
      · rename_i continues
        have longer : Chained version (chain ++ [first]) := by
          refine chained.append (.singleton first) ?_
          simpa [isPrevious] using continues
        obtain ⟨whole, members, ends⟩ := ih bestChained longer
        refine ⟨whole, fun record member => ?_, fun record found => ?_⟩
        · rcases members record member with inBest | inLonger | inRest <;> simp_all [or_assoc]
        · rcases found with inBest | inChain | inRecords
          · exact ends record (.inl inBest)
          · obtain ⟨last, isLast, le⟩ := ends first (.inr (.inl (by simp)))
            have next := seq_of_follows continues
            obtain rfl : previous = record := by simpa [isPrevious] using inChain
            exact ⟨last, isLast, (show previous.seq ≤ first.seq by
              rw [next]; exact Nat.le_succ _).trans le⟩
          · rcases List.mem_cons.mp inRecords with rfl | inRest
            · exact ends record (.inr (.inl (by simp)))
            · exact ends record (.inr (.inr inRest))
      · exact restart
    · exact restart

/-- Whatever the file holds, what recovery accepts is a chain of records of the log. It goes on
from the state block; when that is torn, no record of the log is newer than its end. -/
theorem recovered_is_chain {image : Image} {pageSize : Nat} {point : Point}
    {replay : List WalRecord}
    (found : readCommittedState image pageSize version = .ok (point, replay)) :
    Chained version replay ∧ (∀ record ∈ replay, record ∈ scanAll image pageSize version) ∧
      (∀ start, readState image pageSize = some start ->
        (∀ first ∈ replay.head?, follows version start first = true) ∧
          point = (replay.getLast?.map WalRecord.point).getD start) ∧
      (readState image pageSize = none -> replay.getLast?.map WalRecord.point = some point ∧
        ∀ record ∈ scanAll image pageSize version, record.seq ≤ point.seq) := by
  unfold readCommittedState at found
  cases isState : readState image pageSize with
  | some start =>
    rw [isState] at found
    obtain ⟨chained, front, head, ends⟩ := @walkChain_chained version start
      ((scanAll image pageSize version).filter fun record => record.seq > start.seq)
    rw [Except.ok.inj found] at chained front head ends
    refine ⟨chained, fun record member => List.mem_of_mem_filter (front.subset member), ?_, by simp⟩
    rintro _ ⟨⟩
    exact ⟨head, ends⟩
  | none =>
    rw [isState, committedState] at found
    obtain ⟨chained, members, ends⟩ := @bestChain_chained version [] []
      (scanAll image pageSize version) .nil .nil
    cases isLast : (bestChain version [] [] (scanAll image pageSize version)).getLast? with
    | none => simp [isLast] at found
    | some newest =>
      simp only [isLast] at found
      cases found
      refine ⟨chained, fun record member => by simpa using members record member, by simp,
        fun _ => ⟨by simp [isLast], fun record member => ?_⟩⟩
      obtain ⟨last, found, le⟩ := ends record (.inr (.inr member))
      obtain rfl : newest = last := by simpa [isLast] using found
      exact le

/-- A log of two records, one in each region, with no state block beside them. -/
def twoLog : Image :=
  (Image.blank.write (regionStart 128 0) (encodeRecord 6 ⟨1, 0, 0, 1, 2, []⟩)).write
    (regionStart 128 1) (encodeRecord 6 ⟨2, 1, 1, 2, 3, []⟩)

theorem twoLog_is_chain : ∃ point replay, readCommittedState twoLog 128 6 = .ok (point, replay) ∧
    Chained 6 replay ∧ replay.length = 2 ∧ replay.getLast?.map WalRecord.point = some point := by
  have torn : readState twoLog 128 = none := by decide +kernel
  have read : ((List.range (regionCount 6)).flatMap fun region => (scanRegion twoLog 128 6 region).1) =
      [⟨1, 0, 0, 1, 2, []⟩, ⟨2, 1, 1, 2, 3, []⟩] := by decide +kernel
  have found : readCommittedState twoLog 128 6 =
      .ok (⟨2, 3, 2⟩, [⟨1, 0, 0, 1, 2, []⟩, ⟨2, 1, 1, 2, 3, []⟩]) := by
    rw [readCommittedState, torn, scanAll, read, List.mergeSort_of_pairwise (by decide)]
    rfl
  obtain ⟨chained, -, -, lost⟩ := recovered_is_chain found
  exact ⟨_, _, found, chained, rfl, (lost torn).1⟩

end Recovered

end InlaySql.Wal
