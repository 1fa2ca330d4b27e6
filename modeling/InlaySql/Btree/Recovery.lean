import InlaySql.Btree.Counter
import InlaySql.Sim.Disk
import InlaySql.Wal.Log

/-!
# Recovery

`open` reads the committed state, writes the pages of the records the state block is
behind into the data area and checkpoints: it rewrites the state block, syncs and
truncates one log region. The sync is where it can be interrupted.

A recovery may be interrupted any number of times without changing what the next one
finds, as long as it had nothing left to replay: a state block that becomes durable
while a replayed page does not is never corrected.
-/

namespace InlaySql.Btree

open List Lib Wal Sim

/-- The data area of a file. Page 0 is not stored. -/
def dataArea (image : Image) (pageSize version : Nat) (id : Nat) : Bytes :=
  if id = 0 then [] else image.read (dataOffsetFor pageSize version id) pageSize

/-- What `open` finds before it writes anything. -/
structure Recovered where
  pageSize : Nat
  version : Nat
  point : Point
  replay : List WalRecord
  deriving DecidableEq

/-- The reads of `open`. -/
def findState (image : Image) : Except Error Recovered := do
  let (pageSize, version) <- parseHeader (image.read headerOffset headerLen)
  let (point, replay) <- readCommittedState image pageSize version
  return { pageSize, version, point, replay }

/-- Write the pages of one record into the data area. -/
def writePages (pageSize version : Nat) (disk : SimDisk) (record : WalRecord) : SimDisk :=
  record.pages.foldl
    (fun disk page => disk.write (dataOffsetFor pageSize version page.1) page.2) disk

/-- Write the pages of every replayed record. -/
def Recovered.heal (found : Recovered) (disk : SimDisk) : SimDisk :=
  found.replay.foldl (writePages found.pageSize found.version) disk

/-- `checkpoint` up to its sync, by a handle whose counter is `next`: the state it
writes and the disk with the state block written. -/
def checkpointState (disk : SimDisk) (pageSize version next : Nat) :
    Except Error (Point × SimDisk) := do
  let (point, _) <- readCommittedState disk.volatile pageSize version
  let point := { point with next := max point.next next }
  return (point, disk.write (stateOffset pageSize) (encodeState point))

/-- A tree just opened and the image it reads. -/
structure Opened where
  pageSize : Nat
  version : Nat
  point : Point
  image : Image

/-- A lookup in a tree just opened. -/
def Opened.get (opened : Opened) (key : Bytes) : Except Error (Option Bytes) :=
  CowBTree.getAt opened.pageSize
    (Pages.ofArea opened.pageSize (dataArea opened.image opened.pageSize opened.version))
    opened.point.next opened.point.root key

/-- `open` on a writable device. -/
def openTree (disk : SimDisk) : Except Error Opened := do
  let found <- findState disk.volatile
  if found.replay.isEmpty then
    return { pageSize := found.pageSize, version := found.version, point := found.point
             image := disk.volatile }
  else
    let (point, disk) <- checkpointState (found.heal disk) found.pageSize found.version
      found.point.next
    let disk := (disk.sync .none).write (regionStart found.pageSize 0)
      (List.replicate (walRegionLen found.pageSize) 0)
    return { pageSize := found.pageSize, version := found.version, point
             image := disk.volatile }

/-- The disk at the sync inside `open`; an `open` with nothing to replay has none. -/
def openUntilSync (disk : SimDisk) : Except Error (Option SimDisk) := do
  let found <- findState disk.volatile
  if found.replay.isEmpty then return none
  else
    let (_, disk) <- checkpointState (found.heal disk) found.pageSize found.version
      found.point.next
    return some disk

/-- The durable images any number of interrupted recoveries in a row can leave. -/
inductive Interrupted (image : Image) : Image -> Prop where
  | refl : Interrupted image image
  | again {later : Image} {disk : SimDisk} {fault : Fault} (prior : Interrupted image later)
      (reached : openUntilSync (.withImage later) = .ok (some disk)) (fails : fault ≠ .none) :
      Interrupted image (disk.sync fault).durable

/-- What replaying records writes. -/
def healing (pageSize version : Nat) (records : List WalRecord) : List (Nat × Bytes) :=
  records.flatMap fun record =>
    record.pages.map fun page => (dataOffsetFor pageSize version page.1, page.2)

/-- The condition under which recovery may be interrupted: it reached the newest record
of the log, the only one of its sequence number; the pages it replays, and those of
the newest chain of the log, are in the data area already; and no mix of the state
block with the one recovery writes passes for another. -/
structure Settled (image : Image) (found : Recovered) : Prop where
  newest : ∃ front last, scanAll image found.pageSize found.version = front ++ [last] ∧
    last.point = found.point ∧ ∀ record ∈ front, record.seq < last.seq
  replayed : image.writeAll (healing found.pageSize found.version found.replay) = image
  chained : image.writeAll (healing found.pageSize found.version
    (bestChain found.version [] [] (scanAll image found.pageSize found.version))) = image
  untorn : ∀ kept,
    parseState ((encodeState found.point).take kept ++
        (image.read (stateOffset found.pageSize) stateLen).drop kept) = none ∨
      parseState ((encodeState found.point).take kept ++
        (image.read (stateOffset found.pageSize) stateLen).drop kept) =
          readState image found.pageSize ∨
      parseState ((encodeState found.point).take kept ++
        (image.read (stateOffset found.pageSize) stateLen).drop kept) = some found.point

/-! ## Where things are -/

section Layout

variable {image : Image} {pageSize version : Nat} {data : Bytes}

theorem stateBlock_between (large : minPageSize ≤ pageSize) :
    headerLen ≤ stateOffset pageSize ∧ stateOffset pageSize + stateLen ≤ walStart pageSize := by
  simp only [minPageSize, headerLen, stateOffset, stateLen, walStart] at *
  omega

theorem dataArea_after_log (pageSize version : Nat) {id : Nat} (stored : id ≠ 0) :
    regionEnd pageSize (regionCount version - 1) ≤ dataOffsetFor pageSize version id := by
  have positive : 0 < regionCount version := by
    unfold regionCount
    split <;> decide
  obtain ⟨count, isCount⟩ := Nat.exists_eq_succ_of_ne_zero positive.ne'
  obtain ⟨rest, rfl⟩ := Nat.exists_eq_succ_of_ne_zero stored
  simp only [regionEnd, regionStart, walStart, walRegionLen, walBlocks, dataOffsetFor, isCount,
    Nat.succ_eq_add_one, Nat.add_sub_cancel]
  nlinarith

theorem header_of_state_write (large : minPageSize ≤ pageSize) :
    (image.write (stateOffset pageSize) data).read headerOffset headerLen =
      image.read headerOffset headerLen := by
  have between := (stateBlock_between large).1
  apply Image.read_write_outside
  simp only [headerOffset]
  omega

theorem scanAll_of_state_write (large : minPageSize ≤ pageSize) (short : data.length ≤ stateLen) :
    scanAll (image.write (stateOffset pageSize) data) pageSize version =
      scanAll image pageSize version := by
  have between := (stateBlock_between large).2
  apply scanAll_congr
  intro address low high
  exact Image.byte_write_outside (by omega)

theorem dataOffset_past (pageSize version id : Nat) :
    walStart pageSize ≤ dataOffsetFor pageSize version id := by
  have positive : 1 ≤ regionCount version := by
    unfold regionCount
    split <;> decide
  simp only [dataOffsetFor, walBlocks, walStart]
  nlinarith

theorem dataArea_of_state_write (large : minPageSize ≤ pageSize) (short : data.length ≤ stateLen) :
    dataArea (image.write (stateOffset pageSize) data) pageSize version =
      dataArea image pageSize version := by
  funext id
  unfold dataArea
  split
  · rfl
  · have past := dataOffset_past pageSize version id
    have between := (stateBlock_between large).2
    exact Image.read_write_outside (by omega)

theorem dataArea_of_truncate :
    dataArea (image.write (regionStart pageSize 0) (List.replicate (walRegionLen pageSize) 0))
      pageSize version = dataArea image pageSize version := by
  funext id
  unfold dataArea
  split
  · rfl
  · rename_i stored
    apply Image.read_write_outside
    have after := dataArea_after_log pageSize version stored
    simp only [regionEnd, regionStart] at after
    simp only [length_replicate, regionStart]
    omega

end Layout

/-! ## Healing -/

section Heal

variable {image : Image} {pageSize version : Nat}

theorem foldl_write (disk : SimDisk) (writes : List (Nat × Bytes)) :
    writes.foldl (fun disk write => disk.write write.1 write.2) disk =
      { disk with pending := disk.pending ++ writes } := by
  induction writes generalizing disk with
  | nil => simp
  | cons write writes ih =>
    rw [foldl_cons, ih]
    simp [SimDisk.write]

theorem heal_eq (found : Recovered) (disk : SimDisk) : found.heal disk = { disk with
      pending := disk.pending ++ healing found.pageSize found.version found.replay } := by
  unfold Recovered.heal healing
  rw [<- foldl_write]
  generalize found.replay = records
  induction records generalizing disk with
  | nil => rfl
  | cons record records ih =>
    simp only [foldl_cons, flatMap_cons, foldl_append, ih, writePages, foldl_map]

theorem volatile_heal (found : Recovered) (image : Image) :
    (found.heal (.withImage image)).volatile =
      image.writeAll (healing found.pageSize found.version found.replay) := by
  rw [heal_eq]
  rfl

theorem healing_of_state_write {records : List WalRecord} {data : Bytes}
    (large : minPageSize ≤ pageSize) (short : data.length ≤ stateLen)
    (same : image.writeAll (healing pageSize version records) = image) :
    (image.write (stateOffset pageSize) data).writeAll (healing pageSize version records) =
      image.write (stateOffset pageSize) data := by
  apply Image.writeAll_same same
  intro address
  have between := (stateBlock_between large).2
  by_cases block : stateOffset pageSize ≤ address ∧ address < stateOffset pageSize + data.length
  · apply Or.inr
    intro write member
    obtain ⟨record, -, inPages⟩ := mem_flatMap.mp member
    obtain ⟨page, -, rfl⟩ := mem_map.mp inPages
    have past := dataOffset_past pageSize version page.1
    exact .inl (by omega)
  · exact .inl (Image.byte_write_outside (by omega))

end Heal

/-! ## Interrupted recoveries -/

section Interrupt

variable {image : Image} {found : Recovered}

theorem length_encodeState (point : Point) : (encodeState point).length = stateLen := by
  simp [encodeState, checksumBytes, stateLen]

theorem parseHeader_large {bytes : Bytes} {pageSize version : Nat}
    (parsed : parseHeader bytes = .ok (pageSize, version)) : minPageSize ≤ pageSize := by
  unfold parseHeader at parsed
  split at parsed
  · contradiction
  split at parsed
  · contradiction
  split at parsed
  · contradiction
  dsimp only at parsed
  split at parsed
  · contradiction
  split at parsed
  · contradiction
  split at parsed
  · contradiction
  rename_i large
  have same := congrArg Prod.fst (Except.ok.inj parsed)
  dsimp only at same
  rw [<- same]
  exact not_lt.mp large

theorem findState_parts (isFound : findState image = .ok found) :
    parseHeader (image.read headerOffset headerLen) = .ok (found.pageSize, found.version) ∧
      readCommittedState image found.pageSize found.version = .ok (found.point, found.replay) := by
  unfold findState at isFound
  obtain ⟨⟨pageSize, version⟩, isHeader, rest⟩ := bind_eq_ok isFound
  obtain ⟨⟨point, replay⟩, isState, result⟩ := bind_eq_ok rest
  have same := Except.ok.inj result
  subst same
  exact ⟨isHeader, isState⟩

variable {point : Point} {replay : List WalRecord} {later : Image} {again : Recovered}

theorem findState_of_parts {pageSize version : Nat}
    (isHeader : parseHeader (image.read headerOffset headerLen) = .ok (pageSize, version))
    (isState : readCommittedState image pageSize version = .ok (point, replay)) :
    findState image = .ok { pageSize, version, point, replay } := by
  unfold findState
  rw [isHeader, ok_bind]
  dsimp only
  rw [isState, ok_bind]
  rfl

/-- With the log settled, recovery ends at one state whether it starts from the block
it found, from none, or from the block it writes itself; what it then replays is in
the data area. -/
theorem Settled.committedState_eq (settled : Settled image found)
    (isFound : findState image = .ok found) {state : Option Point}
    (cases : state = none ∨ state = readState image found.pageSize ∨ state = some found.point) :
    ∃ replay, committedState found.version state (scanAll image found.pageSize found.version) =
        .ok (found.point, replay) ∧
      image.writeAll (healing found.pageSize found.version replay) = image := by
  obtain ⟨front, last, isLog, isPoint, older⟩ := settled.newest
  obtain ⟨-, isState⟩ := findState_parts isFound
  rcases cases with rfl | rfl | rfl
  · have ends := bestChain_getLast found.version (show ∀ winner, [].getLast? = some winner → _ by simp)
      (show ∀ winner, [].getLast? = some winner -> _ by simp) older
    rw [<- isLog] at ends
    refine ⟨_, ?_, settled.chained⟩
    simp only [committedState, ends, isPoint]
  · exact ⟨found.replay, isState, settled.replayed⟩
  · have none : (scanAll image found.pageSize found.version).filter
        (fun record => record.seq > found.point.seq) = [] := by
      rw [filter_eq_nil_iff, isLog, <- isPoint]
      intro record member
      rcases mem_append.mp member with inFront | isLast
      · have before := older record inFront
        simp only [WalRecord.point, gt_iff_lt, decide_eq_true_eq]
        omega
      · rw [mem_singleton.mp isLast]
        simp [WalRecord.point]
    refine ⟨[], ?_, rfl⟩
    simp only [committedState, none, walkChain]

/-- The images interrupted recoveries leave: a front of the recovered state block over
the one found. -/
def Recovered.torn (found : Recovered) (image : Image) (kept : Nat) : Image :=
  image.write (stateOffset found.pageSize) ((encodeState found.point).take kept)

theorem Settled.findState_eq (settled : Settled image found)
    (isFound : findState image = .ok found) (kept : Nat) :
    ∃ replay, findState (found.torn image kept) = .ok { found with replay } ∧
      (found.torn image kept).writeAll (healing found.pageSize found.version replay) =
        found.torn image kept := by
  obtain ⟨isHeader, -⟩ := findState_parts isFound
  have large := parseHeader_large isHeader
  have short : ((encodeState found.point).take kept).length ≤ stateLen := by
    rw [length_take, length_encodeState]
    exact min_le_right _ _
  have torn : readState (found.torn image kept) found.pageSize =
      parseState ((encodeState found.point).take kept ++
        (image.read (stateOffset found.pageSize) stateLen).drop kept) := by
    rw [readState, Recovered.torn, <- length_encodeState found.point, Image.read_write_take]
  obtain ⟨replay, isReplay, same⟩ := settled.committedState_eq isFound (settled.untorn kept)
  refine ⟨replay, ?_, healing_of_state_write large short same⟩
  apply findState_of_parts
  · rw [Recovered.torn, header_of_state_write large]
    exact isHeader
  · rw [readCommittedState, torn, Recovered.torn, scanAll_of_state_write large short]
    exact isReplay

theorem checkpointState_heal (isState : readCommittedState
      (later.writeAll (healing again.pageSize again.version again.replay))
      again.pageSize again.version = .ok (again.point, replay)) :
    checkpointState (again.heal (.withImage later)) again.pageSize again.version again.point.next =
      .ok (again.point, (again.heal (.withImage later)).write (stateOffset again.pageSize)
        (encodeState again.point)) := by
  unfold checkpointState
  rw [volatile_heal, isState, ok_bind]
  simp only [max_self]
  rfl

theorem checkpointState_settled (isFound : findState later = .ok again)
    (same : later.writeAll (healing again.pageSize again.version again.replay) = later) :
    checkpointState (again.heal (.withImage later)) again.pageSize again.version again.point.next =
      .ok (again.point, (again.heal (.withImage later)).write (stateOffset again.pageSize)
        (encodeState again.point)) := by
  apply checkpointState_heal
  rw [same]
  exact (findState_parts isFound).2

theorem Settled.interrupted (settled : Settled image found)
    (isFound : findState image = .ok found) (again : Interrupted image later) :
    ∃ kept, later = found.torn image kept := by
  induction again with
  | refl =>
    refine ⟨0, ?_⟩
    exact (Image.write_same rfl).symm
  | @again later disk fault prior reached fails ih =>
    obtain ⟨kept, rfl⟩ := ih
    obtain ⟨replay, isLater, same⟩ := settled.findState_eq isFound kept
    have checkpointed := checkpointState_settled isLater same
    unfold openUntilSync at reached
    rw [SimDisk.volatile_withImage, isLater, ok_bind] at reached
    split at reached
    · cases reached
    · rw [checkpointed, ok_bind] at reached
      have isDisk := Option.some.inj (Except.ok.inj reached)
      obtain ⟨more, durable⟩ := SimDisk.durable_sync_write
        ((Recovered.heal { found with replay } (.withImage (found.torn image kept))))
        (stateOffset found.pageSize) (encodeState found.point) fails
      refine ⟨max kept more, ?_⟩
      rw [<- isDisk, durable, heal_eq]
      exact Image.write_take_take image _ _ _ _

section

variable {disk : SimDisk} (isFound : findState later = .ok again)
    (filled : again.replay.isEmpty = false)
    (checkpointed : checkpointState (again.heal (.withImage later)) again.pageSize again.version
      again.point.next = .ok (point, disk))

include isFound filled checkpointed

theorem openTree_replays :
    ∃ opened, openTree (.withImage later) = .ok opened ∧ opened.pageSize = again.pageSize ∧
      opened.version = again.version ∧ opened.point = point ∧
      dataArea opened.image again.pageSize again.version =
        dataArea disk.volatile again.pageSize again.version := by
  unfold openTree
  rw [SimDisk.volatile_withImage, isFound, ok_bind, filled]
  rw [checkpointed, ok_bind]
  refine ⟨_, rfl, rfl, rfl, rfl, ?_⟩
  rw [SimDisk.volatile_write, dataArea_of_truncate]
  rfl

theorem openUntilSync_replays : openUntilSync (.withImage later) = .ok (some disk) := by
  unfold openUntilSync
  rw [SimDisk.volatile_withImage, isFound, ok_bind, filled]
  rw [checkpointed, ok_bind]
  rfl

end

theorem openTree_settled (isFound : findState later = .ok again)
    (same : later.writeAll (healing again.pageSize again.version again.replay) = later) :
    ∃ opened, openTree (.withImage later) = .ok opened ∧ opened.pageSize = again.pageSize ∧
      opened.version = again.version ∧ opened.point = again.point ∧
      dataArea opened.image again.pageSize again.version =
        dataArea later again.pageSize again.version := by
  obtain ⟨isHeader, -⟩ := findState_parts isFound
  have large := parseHeader_large isHeader
  cases filled : again.replay.isEmpty with
  | true =>
    unfold openTree
    rw [SimDisk.volatile_withImage, isFound, ok_bind, filled]
    exact ⟨_, rfl, rfl, rfl, rfl, rfl⟩
  | false =>
    obtain ⟨opened, isOpened, size, version, point, area⟩ :=
      openTree_replays isFound filled (checkpointState_settled isFound same)
    refine ⟨opened, isOpened, size, version, point, ?_⟩
    rw [area, SimDisk.volatile_write, volatile_heal, same]
    exact dataArea_of_state_write large (length_encodeState again.point).le

/-- **Interrupted recovery.** Recovery may be cut short at its sync any number of times
without changing what is opened in the end, when it has nothing to replay or the log is
settled. -/
theorem recovery_resumes (isFound : findState image = .ok found)
    (resumable : found.replay = [] ∨ Settled image found) {later : Image}
    (interrupted : Interrupted image later) :
    ∃ first second, openTree (.withImage image) = .ok first ∧
      openTree (.withImage later) = .ok second ∧ second.point = first.point ∧
      ∀ key, second.get key = first.get key := by
  rcases resumable with idle | settled
  · have same : image.writeAll (healing found.pageSize found.version found.replay) = image := by
      rw [idle]
      rfl
    have unchanged : later = image := by
      clear same
      induction interrupted with
      | refl => rfl
      | again prior reached fails ih =>
        subst ih
        unfold openUntilSync at reached
        rw [SimDisk.volatile_withImage, isFound, ok_bind, idle] at reached
        cases reached
    obtain ⟨opened, isOpened, -⟩ := openTree_settled isFound same
    rw [unchanged]
    exact ⟨opened, opened, isOpened, isOpened, rfl, fun _ => rfl⟩
  · obtain ⟨kept, rfl⟩ := settled.interrupted isFound interrupted
    obtain ⟨replay, isLater, same⟩ := settled.findState_eq isFound kept
    obtain ⟨isHeader, -⟩ := findState_parts isFound
    have short : ((encodeState found.point).take kept).length ≤ stateLen := by
      rw [length_take, length_encodeState]
      exact min_le_right _ _
    obtain ⟨first, isFirst, size, version, point, area⟩ :=
      openTree_settled isFound settled.replayed
    obtain ⟨second, isSecond, size', version', point', area'⟩ := openTree_settled isLater same
    refine ⟨first, second, isFirst, isSecond, by rw [point, point'], ?_⟩
    intro key
    simp only at size' version' point' area'
    rw [Recovered.torn, dataArea_of_state_write (parseHeader_large isHeader) short] at area'
    unfold Opened.get
    rw [size, version, point, area, size', version', point', area']

end Interrupt

/-! ## A commit whose record survived alone -/

/-- A file with 128-byte pages and nothing committed. -/
def freshFile : Image :=
  (Image.blank.write headerOffset (encodeHeader 128 6)).write (stateOffset 128)
    (encodeState { root := 0, next := 1, seq := 0 })

/-- A leaf that maps the key `1` to the value `2`. -/
def soleLeaf : Bytes :=
  (encodeLeaf 128 [] [{ key := .owned [1], value := .owned [2] }]).toOption.getD []

/-- The commit that writes it to a fresh file. -/
def soleRecord : WalRecord where
  seq := 1
  prevSeq := 0
  prevRoot := 0
  root := 1
  next := 2
  pages := [(1, soleLeaf)]

/-- That commit torn after its record: the record is durable, the page is not. -/
def tornCommit : Image := freshFile.write (regionStart 128 0) (encodeRecord 6 soleRecord)

/-- That commit synced. -/
def wholeCommit : Image := tornCommit.write (dataOffsetFor 128 6 1) soleLeaf

def soleRecovered : Recovered where
  pageSize := 128
  version := 6
  point := { root := 1, next := 2, seq := 1 }
  replay := [soleRecord]

/-- What a commit wrote is there before and after an interrupted recovery, when its
page is durable beside its record. -/
theorem wholeCommit_resumes : ∃ disk first second,
    openUntilSync (.withImage wholeCommit) = .ok (some disk) ∧
      openTree (.withImage wholeCommit) = .ok first ∧
      openTree (.withImage (disk.sync (.tornWrite 32)).durable) = .ok second ∧
      ∀ key, second.get key = first.get key := by
  have isFound : findState wholeCommit = .ok soleRecovered := by decide +kernel
  have log : scanAll wholeCommit 128 6 = [soleRecord] := by decide +kernel
  have inPlace : wholeCommit.read (dataOffsetFor 128 6 1) soleLeaf.length = soleLeaf :=
    Image.read_write tornCommit (dataOffsetFor 128 6 1) soleLeaf
  have same : wholeCommit.writeAll (healing 128 6 [soleRecord]) = wholeCommit :=
    Image.write_same inPlace
  have settled : Settled wholeCommit soleRecovered := by
    constructor
    · exact ⟨[], soleRecord, log, rfl, by simp⟩
    · exact same
    · change wholeCommit.writeAll (healing 128 6 (bestChain 6 [] [] (scanAll wholeCommit 128 6))) = _
      rw [log]
      exact same
    · intro kept
      have cut : ∀ front < 33, parseState ((encodeState soleRecovered.point).take front ++
              (wholeCommit.read 128 32).drop front) = none ∨
            parseState ((encodeState soleRecovered.point).take front ++
              (wholeCommit.read 128 32).drop front) = readState wholeCommit 128 ∨
            parseState ((encodeState soleRecovered.point).take front ++
              (wholeCommit.read 128 32).drop front) = some soleRecovered.point := by
        decide +kernel
      rcases Nat.lt_or_ge kept 33 with inside | past
      · exact cut kept inside
      · -- A front longer than the block is the whole block.
        have whole : (encodeState soleRecovered.point).take kept =
            (encodeState soleRecovered.point).take 32 := by
          rw [take_of_length_le (by rw [length_encodeState, stateLen]; omega),
            take_of_length_le (by rw [length_encodeState, stateLen])]
        have rest : (wholeCommit.read 128 32).drop kept = (wholeCommit.read 128 32).drop 32 := by
          rw [drop_of_length_le (by rw [Image.length_read]; omega),
            drop_of_length_le (by rw [Image.length_read])]
        have last := cut 32 (by decide)
        rw [<- whole, <- rest] at last
        exact last
  have checkpointed := checkpointState_settled isFound same
  have reached := openUntilSync_replays isFound rfl checkpointed
  obtain ⟨first, second, isFirst, isSecond, -, gets⟩ := recovery_resumes isFound (.inr settled)
    (.again .refl reached (show Fault.tornWrite 32 ≠ .none by decide))
  exact ⟨_, first, second, reached, isFirst, isSecond, gets⟩

/-- A record whose page did not become durable with it. Recovery interrupted once
leaves a state block that names the page and nothing that would replay it. -/
theorem tornCommit_lost : ∃ later first second,
    Interrupted tornCommit later ∧ openTree (.withImage tornCommit) = .ok first ∧
      openTree (.withImage later) = .ok second ∧ first.get [1] = .ok (some [2]) ∧
      second.get [1] = .error (.corrupt "slot directory overlaps cell area") := by
  have isFound : findState tornCommit = .ok soleRecovered := by decide +kernel
  have isState : readCommittedState (tornCommit.writeAll (healing 128 6 [soleRecord])) 128 6 =
      .ok (soleRecovered.point, [soleRecord]) := by decide +kernel
  have checkpointed : checkpointState (soleRecovered.heal (.withImage tornCommit)) 128 6 2 = _ :=
    checkpointState_heal isState
  obtain ⟨first, isFirst, size, version, point, area⟩ := openTree_replays isFound rfl checkpointed
  have reached := openUntilSync_replays isFound rfl checkpointed
  -- The torn write of the state block keeps all of it.
  let later := tornCommit.write (stateOffset 128) (encodeState soleRecovered.point)
  have interrupted : Interrupted tornCommit later :=
    .again .refl reached (show Fault.tornWrite 32 ≠ .none by decide)
  have isLater : findState later = .ok { soleRecovered with replay := [] } := by decide +kernel
  have isSecond : openTree (.withImage later) =
      .ok { pageSize := 128, version := 6, point := soleRecovered.point, image := later } := by
    unfold openTree
    rw [SimDisk.volatile_withImage, isLater]
    rfl
  have read : CowBTree.getAt 128 (Pages.ofArea 128 (dataArea ((tornCommit.writeAll
      (healing 128 6 [soleRecord])).write (stateOffset 128) (encodeState soleRecovered.point))
      128 6)) 2 1 [1] = .ok (some [2]) := by decide +kernel
  have lost : CowBTree.getAt 128 (Pages.ofArea 128 (dataArea later 128 6)) 2 1 [1] =
      .error (.corrupt "slot directory overlaps cell area") := by decide +kernel
  refine ⟨later, first, _, interrupted, isFirst, isSecond, ?_, lost⟩
  rw [SimDisk.volatile_write, volatile_heal] at area
  unfold Opened.get
  rw [size, version, point, area]
  exact read

end InlaySql.Btree
