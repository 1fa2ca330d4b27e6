import InlaySql.Wal.Log

/-!
# What a region scan recovers

A record decodes to what was encoded, the elided zeros of its pages put back. Records
laid one after another in a region come back in order up to the first stretch that is
blank or the start of a record that was cut short, provided the cut shows in the
checksum.
-/

namespace InlaySql.Wal

open List Lib Btree

/-! ## Fields -/

variable {bytes : Bytes} (front : Bytes) {offset length value version : Nat} {image : Image}
  {record : WalRecord} {stop : Nat} {tail : Bytes}

theorem slice_laid {field : Bytes} (laid : front ++ field <+: bytes)
    (start : front.length = offset) (size : field.length = length) :
    slice bytes offset length = field := by
  obtain ⟨back, rfl⟩ := laid
  subst start size
  exact slice_middle front field back

theorem ofLe_laid {width : Nat} (laid : front ++ leBytes width value <+: bytes)
    (start : front.length = offset) (fits : value < 256 ^ width) :
    ofLe (slice bytes offset width) = value := by
  rw [slice_laid front laid start (length_leBytes width value), ofLe_leBytes fits]

theorem readU32_laid (laid : front ++ leBytes 4 value <+: bytes) (start : front.length = offset)
    (fits : value < 2 ^ 32) : readU32 bytes offset = value :=
  ofLe_laid front laid start (by simpa using fits)

theorem readU64_laid (laid : front ++ leBytes 8 value <+: bytes) (start : front.length = offset)
    (fits : value < 2 ^ 64) : readU64 bytes offset = value :=
  ofLe_laid front laid start (by simpa using fits)

/-! ## The longest run of zeros -/

/-- A stretch of zeros of `bytes`, as its start and length. -/
def IsZeroRun (bytes : Bytes) (run : Nat × Nat) : Prop :=
  run.1 + run.2 ≤ bytes.length ∧ slice bytes run.1 run.2 = List.replicate run.2 0

theorem zeroRun_spec (bytes : Bytes) : zeroRun bytes ≤ bytes.length ∧
      bytes.take (zeroRun bytes) = List.replicate (zeroRun bytes) 0 := by
  induction bytes with
  | nil => simp [zeroRun]
  | cons byte rest ih =>
    obtain ⟨within, zeros⟩ := ih
    by_cases zero : byte = 0
    · simp [zeroRun, zero, zeros, replicate_succ, within]
    · simp [zeroRun, zero]

theorem longestZeroRunFrom_isZeroRun (bytes rest before : Bytes) {inside : Nat}
    {best : Nat × Nat} (split : bytes = before ++ rest) (found : IsZeroRun bytes best) :
    IsZeroRun bytes (longestZeroRunFrom rest before.length inside best) := by
  induction rest generalizing before inside best with
  | nil => exact found
  | cons byte rest ih =>
    have onward : bytes = (before ++ [byte]) ++ rest := by simp [split]
    have count : (before ++ [byte]).length = before.length + 1 := by simp
    unfold longestZeroRunFrom
    by_cases opens : byte = 0 ∧ inside = 0
    · rw [if_pos opens]
      have here : IsZeroRun bytes (before.length, zeroRun rest + 1) := by
        obtain ⟨within, zeros⟩ := zeroRun_spec rest
        refine ⟨by simp [split]; omega, ?_⟩
        simp [slice, split, opens.1, zeros, replicate_succ]
      have longer : IsZeroRun bytes
          (if zeroRun rest + 1 > best.2 then (before.length, zeroRun rest + 1) else best) := by
        split
        · exact here
        · exact found
      simpa only [count] using ih _ onward longer
    · rw [if_neg opens]
      simpa only [count] using ih _ onward found

theorem longestZeroRun_isZeroRun (bytes : Bytes) : IsZeroRun bytes (longestZeroRun bytes) := by
  have empty : IsZeroRun bytes (0, 0) := by simp [IsZeroRun, slice]
  exact longestZeroRunFrom_isZeroRun bytes bytes [] rfl empty

theorem rebuild_hole {run : Nat × Nat} (zeros : IsZeroRun bytes run) :
    bytes.take run.1 ++ List.replicate run.2 0 ++ bytes.drop (run.1 + run.2) = bytes := by
  rw [<- zeros.2, slice, append_assoc, <- drop_drop, take_append_drop, take_append_drop]

/-! ## Page entries -/

/-- A page a record can carry: a 64-bit id and an image of at most `maxPageImageLen`
bytes. -/
def PageFits (page : Nat × Bytes) : Prop :=
  page.1 < 2 ^ 64 ∧ page.2.length ≤ maxPageImageLen

/-- The run a page entry leaves out; before the elision an empty one at the end. -/
def entryHole (version : Nat) (image : Bytes) : Nat × Nat :=
  if version ≥ holeElidedFormatVersion then longestZeroRun image else (image.length, 0)

/-- The two numbers that name the run left out. -/
def entryHoleFields (version : Nat) (image : Bytes) : Bytes :=
  if version ≥ holeElidedFormatVersion then
    leBytes 4 (entryHole version image).1 ++ leBytes 4 (entryHole version image).2
  else []

/-- The bytes of a page an entry keeps. -/
def entryKept (version : Nat) (image : Bytes) : Bytes :=
  image.take (entryHole version image).1 ++
    image.drop ((entryHole version image).1 + (entryHole version image).2)

section Entry

variable {version : Nat} {image : Bytes}

theorem entryHole_isZeroRun (version : Nat) (image : Bytes) :
    IsZeroRun image (entryHole version image) := by
  unfold entryHole
  split
  · exact longestZeroRun_isZeroRun image
  · exact ⟨by simp, by simp [slice]⟩

theorem length_entryKept (version : Nat) (image : Bytes) :
    (entryKept version image).length = image.length - (entryHole version image).2 := by
  have within := (entryHole_isZeroRun version image).1
  simp only [entryKept, length_append, length_take, length_drop]
  omega

theorem encodePageEntry_eq (version id : Nat) (image : Bytes) :
    encodePageEntry version (id, image) =
      leBytes 8 id ++ leBytes 4 (entryKept version image).length ++
        entryHoleFields version image ++ entryKept version image := by
  rw [length_entryKept]
  unfold encodePageEntry entryHoleFields entryKept entryHole
  by_cases elides : version ≥ holeElidedFormatVersion
  · simp only [if_pos elides, append_assoc]
  · simp [if_neg elides]

theorem length_entryHeader (version id : Nat) (image : Bytes) :
    (leBytes 8 id ++ leBytes 4 (entryKept version image).length ++
      entryHoleFields version image).length = pageEntryHeaderLen version := by
  unfold entryHoleFields pageEntryHeaderLen
  split <;> simp

variable {checksumOffset : Nat}

theorem decodePageEntries_step {count id : Nat} (fits : PageFits (id, image))
    {bytes front back : Bytes}
    (laid : bytes = front ++ (encodePageEntry version (id, image) ++ back))
    (inside : front.length + (encodePageEntry version (id, image)).length ≤ checksumOffset) :
    decodePageEntries bytes version checksumOffset (count + 1) front.length =
      (decodePageEntries bytes version checksumOffset count
        (front.length + (encodePageEntry version (id, image)).length)).map ((id, image) :: ·) := by
  obtain ⟨idFits, imageShort⟩ := fits
  simp only at idFits imageShort
  have imageFits : image.length < 2 ^ 32 := lt_of_le_of_lt imageShort (by decide)
  obtain ⟨within, zeros⟩ := entryHole_isZeroRun version image
  have keptLength := length_entryKept version image
  have shape := encodePageEntry_eq version id image
  have headerLength := length_entryHeader version id image
  have entryLength : (encodePageEntry version (id, image)).length =
      pageEntryHeaderLen version + (entryKept version image).length := by
    rw [shape, length_append, headerLength]
  have readId : readU64 bytes front.length = id := by
    apply readU64_laid front _ rfl idFits
    simp [laid, shape]
  have readStored : readU32 bytes (front.length + 8) = (entryKept version image).length := by
    apply readU32_laid (front ++ leBytes 8 id) _ (by simp) (by omega)
    simp [laid, shape]
  have readHole : (if version ≥ holeElidedFormatVersion then
        (readU32 bytes (front.length + 12), readU32 bytes (front.length + 16))
      else ((entryKept version image).length, 0)) = entryHole version image := by
    split
    · rename_i elides
      have fields : entryHoleFields version image =
          leBytes 4 (entryHole version image).1 ++ leBytes 4 (entryHole version image).2 :=
        if_pos elides
      refine Prod.ext ?_ ?_
      · apply readU32_laid (front ++ leBytes 8 id ++ leBytes 4 (entryKept version image).length) _
          (by simp) (by omega)
        simp [laid, shape, fields]
      · apply readU32_laid (front ++ leBytes 8 id ++ leBytes 4 (entryKept version image).length ++
            leBytes 4 (entryHole version image).1) _ (by simp) (by omega)
        simp [laid, shape, fields]
    · rename_i whole
      have none : entryHole version image = (image.length, 0) := if_neg whole
      rw [keptLength, none]
      rfl
  have bodyLaid : bytes = (front ++ (leBytes 8 id ++
      leBytes 4 (entryKept version image).length ++ entryHoleFields version image)) ++
        (entryKept version image ++ back) := by
    simp [laid, shape]
  have bodyStart : (front ++ (leBytes 8 id ++ leBytes 4 (entryKept version image).length ++
      entryHoleFields version image)).length = front.length + pageEntryHeaderLen version := by
    rw [length_append, headerLength]
  have holeInside : (entryHole version image).1 ≤ (entryKept version image).length := by omega
  have beforeHole : slice bytes (front.length + pageEntryHeaderLen version)
      (entryHole version image).1 = image.take (entryHole version image).1 := by
    apply slice_laid _ _ bodyStart (by simp; omega)
    rw [bodyLaid, entryKept]
    simp
  have afterHole : slice bytes (front.length + pageEntryHeaderLen version +
        (entryHole version image).1)
      ((entryKept version image).length - (entryHole version image).1) =
        image.drop ((entryHole version image).1 + (entryHole version image).2) := by
    apply slice_laid (front ++ (leBytes 8 id ++
      leBytes 4 (entryKept version image).length ++ entryHoleFields version image) ++
        image.take (entryHole version image).1)
    · rw [bodyLaid, entryKept]
      simp
    · rw [length_append, bodyStart, length_take]
      omega
    · rw [length_drop]
      omega
  have rebuilt := rebuild_hole ⟨within, zeros⟩
  rw [entryLength] at inside
  rw [decodePageEntries]
  simp only [readId, readStored, readHole, beforeHole, afterHole, rebuilt]
  rw [if_neg (by omega), if_neg (by omega), entryLength, Nat.add_assoc]

theorem decodePageEntries_laid {pages : List (Nat × Bytes)} (back : Bytes)
    (fits : ∀ page ∈ pages, PageFits page) {bytes front : Bytes}
    (laid : bytes = front ++ (pages.flatMap (encodePageEntry version) ++ back))
    (ends : front.length + (pages.flatMap (encodePageEntry version)).length = checksumOffset) :
    decodePageEntries bytes version checksumOffset pages.length front.length = some pages := by
  induction pages generalizing front with
  | nil =>
    have done : front.length = checksumOffset := by simpa using ends
    exact if_pos done
  | cons page pages ih =>
    obtain ⟨id, image⟩ := page
    rw [flatMap_cons, length_append] at ends
    rw [flatMap_cons, append_assoc] at laid
    have rest := ih (fun page member => fits page (mem_cons_of_mem _ member))
      (show bytes = (front ++ encodePageEntry version (id, image)) ++
        (pages.flatMap (encodePageEntry version) ++ back) by simp [laid])
      (by rw [length_append]; omega)
    rw [length_cons, decodePageEntries_step (fits _ mem_cons_self) laid (by omega),
      <- length_append, rest]
    rfl

end Entry

/-! ## Records -/

/-- A record the encoder can carry: every field in its width, a sequence number that is
not zero, pages of at most `maxPageImageLen` bytes, and a length its prefix can hold.
Before the multi-region layout the previous state is implied. -/
structure WalRecord.Encodable (version : Nat) (record : WalRecord) : Prop where
  seq_ne : record.seq ≠ 0
  seq : record.seq < 2 ^ 64
  prevSeq : record.prevSeq < 2 ^ 64
  prevRoot : record.prevRoot < 2 ^ 64
  root : record.root < 2 ^ 64
  next : record.next < 2 ^ 64
  pages : ∀ page ∈ record.pages, PageFits page
  single : version < multiRegionFormatVersion ->
    record.prevSeq = record.seq - 1 ∧ record.prevRoot = 0
  length : (encodeRecord version record).length < 2 ^ 32

/-- The fields of a record before its pages. -/
def recordHead (version : Nat) (record : WalRecord) : Bytes :=
  leBytes 8 record.seq ++
    (if version ≥ multiRegionFormatVersion then
      leBytes 8 record.prevSeq ++ leBytes 8 record.prevRoot else []) ++
    leBytes 8 record.root ++ leBytes 8 record.next ++ leBytes 4 record.pages.length

/-- A record before its checksum. -/
def recordBody (version : Nat) (record : WalRecord) : Bytes :=
  leBytes 4 (encodeRecord version record).length ++ (recordHead version record ++
    record.pages.flatMap (encodePageEntry version))

section Record

variable {version : Nat} {record : WalRecord}

section

variable (version : Nat)

theorem length_recordHead (record : WalRecord) :
    (recordHead version record).length + 4 = pagesOffset version := by
  unfold recordHead pagesOffset
  split <;> simp

theorem encodeRecord_eq (record : WalRecord) : encodeRecord version record =
      recordBody version record ++ checksumBytes (recordBody version record) := by
  have fields : encodeRecordFields version record =
      recordHead version record ++ record.pages.flatMap (encodePageEntry version) := rfl
  have size : (encodeRecord version record).length =
      4 + (encodeRecordFields version record).length + 8 := by
    simp [encodeRecord, checksumBytes, Nat.add_assoc]
  rw [recordBody, <- fields, size]
  rfl

theorem length_recordBody (record : WalRecord) :
    (recordBody version record).length + 8 = (encodeRecord version record).length := by
  rw [encodeRecord_eq, length_append, checksumBytes, length_leBytes]

theorem length_pages_le (pages : List (Nat × Bytes)) :
    pages.length ≤ (pages.flatMap (encodePageEntry version)).length := by
  induction pages with
  | nil => exact Nat.zero_le _
  | cons page pages ih =>
    obtain ⟨id, image⟩ := page
    have header : 8 ≤ (encodePageEntry version (id, image)).length := by
      rw [encodePageEntry_eq]
      simp
    rw [flatMap_cons, length_append, length_cons]
    omega

theorem length_encodeRecord (record : WalRecord) :
    (encodeRecord version record).length = pagesOffset version +
      (record.pages.flatMap (encodePageEntry version)).length + 8 := by
  have head := length_recordHead version record
  rw [<- length_recordBody, recordBody]
  simp only [length_append, length_leBytes]
  omega

theorem encodeRecord_laid (record : WalRecord) :
    encodeRecord version record = leBytes 4 (encodeRecord version record).length ++
      (recordHead version record ++ (record.pages.flatMap (encodePageEntry version) ++
        checksumBytes (recordBody version record))) := by
  conv_lhs => rw [encodeRecord_eq]
  simp only [recordBody, append_assoc]

end

theorem readU32_encodeRecord (short : (encodeRecord version record).length < 2 ^ 32)
    (back : Bytes) :
    readU32 (encodeRecord version record ++ back) 0 = (encodeRecord version record).length := by
  apply readU32_laid [] _ rfl short
  conv_rhs => rw [encodeRecord_laid]
  simp

theorem read_recordHead (encodable : record.Encodable version) :
    readU64 (encodeRecord version record) 4 = record.seq ∧ (version ≥ multiRegionFormatVersion ->
        readU64 (encodeRecord version record) 12 = record.prevSeq ∧
          readU64 (encodeRecord version record) 20 = record.prevRoot) ∧
      readU64 (encodeRecord version record) (pagesOffset version - 20) = record.root ∧
      readU64 (encodeRecord version record) (pagesOffset version - 12) = record.next ∧
      readU32 (encodeRecord version record) (pagesOffset version - 4) = record.pages.length := by
  have laid := encodeRecord_laid version record
  generalize size : leBytes 4 (encodeRecord version record).length = prefixed at laid
  have sizeLength : prefixed.length = 4 := by rw [<- size, length_leBytes]
  generalize previous : (if version ≥ multiRegionFormatVersion then
      leBytes 8 record.prevSeq ++ leBytes 8 record.prevRoot else []) = chain
  have chainLength : chain.length + 32 = pagesOffset version := by
    rw [<- previous]
    unfold pagesOffset
    split <;> simp
  simp only [recordHead, previous, append_assoc] at laid
  have pagesShort : record.pages.length < 2 ^ 32 := by
    have least := length_pages_le version record.pages
    have whole := length_encodeRecord version record
    have short := encodable.length
    omega
  refine ⟨?_, ?_, ?_, ?_, ?_⟩
  · apply readU64_laid prefixed _ sizeLength encodable.seq
    simp [laid]
  · intro multi
    rw [if_pos multi] at previous
    rw [<- previous] at laid
    constructor
    · apply readU64_laid (prefixed ++ leBytes 8 record.seq) _ (by simp [sizeLength])
        encodable.prevSeq
      simp [laid]
    · apply readU64_laid (prefixed ++ leBytes 8 record.seq ++ leBytes 8 record.prevSeq) _
        (by simp [sizeLength]) encodable.prevRoot
      simp [laid]
  · apply readU64_laid (prefixed ++ leBytes 8 record.seq ++ chain) _ (by simp; omega) encodable.root
    simp [laid]
  · apply readU64_laid (prefixed ++ leBytes 8 record.seq ++ chain ++ leBytes 8 record.root) _
      (by simp; omega) encodable.next
    simp [laid]
  · apply readU32_laid (prefixed ++ leBytes 8 record.seq ++ chain ++
      leBytes 8 record.root ++ leBytes 8 record.next) _ (by simp; omega) pagesShort
    simp [laid]

theorem decodeRecord_encodeRecord (encodable : record.Encodable version) :
    decodeRecordForVersion (encodeRecord version record) version = some record := by
  have short := encodable.length
  have size := length_encodeRecord version record
  have body := length_recordBody version record
  have total : readU32 (encodeRecord version record) 0 = (encodeRecord version record).length := by
    simpa using readU32_encodeRecord short []
  have bodyTaken : (encodeRecord version record).take ((encodeRecord version record).length - 8) =
      recordBody version record := by
    conv_lhs => rw [encodeRecord_eq]
    exact take_left' (by rw [<- encodeRecord_eq]; omega)
  have checksum : readU64 (encodeRecord version record) ((encodeRecord version record).length - 8) =
        (fnv1a (recordBody version record)).toNat := by
    apply readU64_laid (recordBody version record) _ (by omega) (UInt64.toNat_lt _)
    conv_rhs => rw [encodeRecord_eq]
    simp [checksumBytes]
  have pages : decodePageEntries (encodeRecord version record) version
      ((encodeRecord version record).length - 8) record.pages.length (pagesOffset version) =
        some record.pages := by
    have head := length_recordHead version record
    have start : (leBytes 4 (encodeRecord version record).length ++
        recordHead version record).length = pagesOffset version := by
      simp only [length_append, length_leBytes]
      omega
    rw [<- start]
    apply decodePageEntries_laid (checksumBytes (recordBody version record)) encodable.pages
    · conv_lhs => rw [encodeRecord_laid]
      simp only [append_assoc]
    · omega
  obtain ⟨seq, previous, root, next, count⟩ := read_recordHead encodable
  unfold decodeRecordForVersion
  simp only [total, bodyTaken, checksum, seq, root, next, count, pages]
  rw [if_neg (by omega), if_neg (by omega), if_neg (by simp), if_neg encodable.seq_ne]
  by_cases multi : version ≥ multiRegionFormatVersion
  · obtain ⟨prevSeq, prevRoot⟩ := previous multi
    simp [multi, prevSeq, prevRoot]
  · obtain ⟨prevSeq, prevRoot⟩ := encodable.single (by omega)
    simp [multi, <- prevSeq, <- prevRoot]

end Record

/-! ## The tail of a region -/

/-- Whether the checksum a byte string ends with is that of what stands before it. -/
def ChecksumHolds (bytes : Bytes) : Prop :=
  (fnv1a (bytes.take (bytes.length - 8))).toNat = readU64 bytes (bytes.length - 8)

/-- A record of which only the first `kept` bytes reached the device. -/
def cutRecord (version : Nat) (record : WalRecord) (kept : Nat) : Bytes :=
  (encodeRecord version record).take kept ++
    List.replicate ((encodeRecord version record).length - kept) 0

/-- What may stand in a region after its records: nothing but zeros, or the start of a
record cut short with nothing but zeros behind it. The cut is assumed to show in the
checksum where the whole of the record would have fit; up to the length prefix it always
shows. -/
inductive Tail (version : Nat) : Bytes -> Prop
  | blank (length : Nat) : Tail version (List.replicate length 0)
  | cut (record : WalRecord) (kept length : Nat)
      (prefixed : (encodeRecord version record).length < 2 ^ 32)
      (short : kept < (encodeRecord version record).length)
      (detected : 4 < kept -> (encodeRecord version record).length ≤ kept + length ->
        ¬ ChecksumHolds (cutRecord version record kept)) :
      Tail version ((encodeRecord version record).take kept ++ List.replicate length 0)

theorem decodeRecord_eq_none_of_seq (unnumbered : readU64 bytes 4 = 0) :
    decodeRecordForVersion bytes version = none := by
  unfold decodeRecordForVersion
  simp [unnumbered]

theorem decodeRecord_eq_none_of_checksum (torn : ¬ ChecksumHolds bytes) :
    decodeRecordForVersion bytes version = none := by
  unfold decodeRecordForVersion
  simp only
  split
  · rfl
  · split
    · rfl
    · rename_i sized
      have total : readU32 bytes 0 = bytes.length := by
        by_contra other
        exact sized (.inl other)
      rw [if_pos (by rw [total]; exact torn)]

theorem ofLe_replicate_zero (length : Nat) : ofLe (List.replicate length 0) = 0 := by
  induction length with
  | zero => rfl
  | succ length ih => simp [replicate_succ, ofLe, ih]

theorem read_append {front back : Bytes} (holds : image.read offset length = front ++ back) :
    image.read offset front.length = front ∧
      image.read (offset + front.length) (length - front.length) = back := by
  have size : length = front.length + back.length := by
    simpa using congrArg List.length holds
  rw [size, Image.read_add] at holds
  rw [size, Nat.add_sub_cancel_left]
  exact append_inj holds (by simp)

theorem read_of_read {count : Nat} {known : Bytes} (holds : image.read offset length = known)
    (inside : count ≤ length) : image.read offset count = known.take count := by
  rw [<- holds, Image.take_read image inside]

theorem readU64_zeros (few : front.length ≤ 4) (length total : Nat) :
    readU64 ((front ++ List.replicate length 0).take total) 4 = 0 := by
  have gone : front.drop 4 = [] := drop_eq_nil_of_le few
  simp only [readU64, slice, drop_take, drop_append, gone, nil_append,
    drop_replicate, take_replicate]
  exact ofLe_replicate_zero _

theorem readU32_cut {kept : Nat} (prefixed : (encodeRecord version record).length < 2 ^ 32)
    (short : kept < (encodeRecord version record).length) (past : 4 < kept) (back : Bytes) :
    readU32 (((encodeRecord version record).take kept ++ back).take 4) 0 =
      (encodeRecord version record).length := by
  have whole := readU32_encodeRecord prefixed []
  have taken : ((encodeRecord version record).take kept).length = kept := by simp; omega
  simp only [readU32, slice, drop_zero, append_nil] at whole ⊢
  rw [take_take, Nat.min_self, take_append_of_le_length (by omega), take_take,
    Nat.min_eq_left (by omega), whole]

section

variable (torn : Tail version tail) (holds : image.read offset (stop - offset) = tail)

include torn holds

theorem decodeRecord_tail (room : offset + 12 ≤ stop)
    (inside : offset + readU32 (image.read offset 4) 0 ≤ stop) :
    decodeRecordForVersion (image.read offset (readU32 (image.read offset 4) 0)) version =
      none := by
  have buffer := read_of_read holds (show readU32 (image.read offset 4) 0 ≤ stop - offset by omega)
  have header := read_of_read holds (show 4 ≤ stop - offset by omega)
  have size : tail.length = stop - offset := by rw [<- holds, Image.length_read]
  rw [buffer]
  cases torn with
  | blank length =>
    exact decodeRecord_eq_none_of_seq (readU64_zeros [] (by simp) length _)
  | cut record kept length prefixed short detected =>
    by_cases past : 4 < kept
    · rw [header, readU32_cut prefixed short past] at inside ⊢
      have taken : ((encodeRecord version record).take kept).length = kept := by
        simp
        omega
      simp only [length_append, taken, length_replicate] at size
      have torn : ((encodeRecord version record).take kept ++ List.replicate length 0).take
          (encodeRecord version record).length = cutRecord version record kept := by
        rw [List.take_append, taken, take_take, Nat.min_eq_right (by omega),
          take_replicate, Nat.min_eq_left (by omega)]
        rfl
      rw [torn]
      exact decodeRecord_eq_none_of_checksum (detected past (by omega))
    · exact decodeRecord_eq_none_of_seq (readU64_zeros _ (by simp; omega) length _)

theorem scanLoop_tail (turns : Nat) :
    scanLoop image version stop turns offset = ([], offset) := by
  cases turns with
  | zero => rfl
  | succ turns =>
    unfold scanLoop
    by_cases room : offset + 12 ≤ stop
    · rw [if_pos room]
      simp only
      split
      · rfl
      · rename_i ends
        rw [not_or, not_or] at ends
        rw [decodeRecord_tail torn holds room (by omega)]
    · rw [if_neg room]

end

/-! ## The scan -/

theorem scanLoop_records {records : List WalRecord}
    (encodable : ∀ record ∈ records, record.Encodable version) (torn : Tail version tail)
    {turns : Nat} (enough : stop - offset ≤ turns) (holds : image.read offset (stop - offset) =
      records.flatMap (encodeRecord version) ++ tail) :
    scanLoop image version stop turns offset =
      (records, offset + (records.flatMap (encodeRecord version)).length) := by
  induction records generalizing offset turns with
  | nil => exact scanLoop_tail torn holds turns
  | cons record records ih =>
    rw [flatMap_cons, append_assoc] at holds
    obtain ⟨here, onward⟩ := read_append holds
    have size : stop - offset = (encodeRecord version record).length +
        ((records.flatMap (encodeRecord version)).length + tail.length) := by
      simpa using congrArg List.length holds
    have recordSize := length_encodeRecord version record
    have least : 12 ≤ pagesOffset version := by
      unfold pagesOffset
      split <;> decide
    have short := (encodable record mem_cons_self).length
    have total : readU32 (image.read offset 4) 0 = (encodeRecord version record).length := by
      have whole := readU32_encodeRecord short []
      rw [append_nil, readU32, slice, drop_zero] at whole
      rw [readU32, slice, drop_zero, take_of_length_le (by simp),
        read_of_read here (by omega), whole]
    cases turns with
    | zero => omega
    | succ turns =>
      have rest := ih (fun record member => encodable record (mem_cons_of_mem _ member))
        (show stop - (offset + (encodeRecord version record).length) ≤ turns by omega)
        (by rw [<- onward, Nat.sub_sub])
      unfold scanLoop
      rw [if_pos (by omega)]
      simp only [total]
      rw [if_neg (by omega), here, decodeRecord_encodeRecord (encodable record mem_cons_self), rest,
        flatMap_cons, length_append, Nat.add_assoc]

/-- A record decodes to what was encoded, and a region that holds records one after
another up to a blank or torn tail scans to those records and the place after the last. -/
theorem scanRegion_records (version : Nat) : (∀ record : WalRecord, record.Encodable version ->
      decodeRecordForVersion (encodeRecord version record) version = some record) ∧
    ∀ (image : Image) (pageSize region : Nat) (records : List WalRecord) (tail : Bytes),
      (∀ record ∈ records, record.Encodable version) -> Tail version tail ->
      image.read (regionStart pageSize region) (walRegionLen pageSize) =
        records.flatMap (encodeRecord version) ++ tail ->
      scanRegion image pageSize version region = (records, regionStart pageSize region +
          (records.flatMap (encodeRecord version)).length) := by
  refine ⟨fun record encodable => decodeRecord_encodeRecord encodable, ?_⟩
  intro image pageSize region records tail encodable torn holds
  have whole : regionEnd pageSize region - regionStart pageSize region = walRegionLen pageSize := by
    simp only [regionEnd]
    omega
  exact scanLoop_records encodable torn (by omega) (by rw [whole, holds])

/-- A region with one record written to a blank device. -/
def regionWith (pageSize version region : Nat) (record : WalRecord) : Image :=
  Image.blank.write (regionStart pageSize region) (encodeRecord version record)

theorem read_regionWith {pageSize : Nat} (region : Nat)
    (fits : (encodeRecord version record).length ≤ walRegionLen pageSize) :
    (regionWith pageSize version region record).read (regionStart pageSize region)
        (walRegionLen pageSize) =
      [record].flatMap (encodeRecord version) ++
        List.replicate (walRegionLen pageSize - (encodeRecord version record).length) 0 := by
  obtain ⟨left, whole⟩ := Nat.exists_eq_add_of_le fits
  rw [whole, Image.read_add, regionWith, Image.read_write, flatMap_singleton,
    Nat.add_sub_cancel_left]
  congr 1
  refine eq_replicate_iff.mpr ⟨by simp, fun byte member => ?_⟩
  obtain ⟨index, _, rfl⟩ := mem_map.mp member
  exact Image.byte_write_outside (.inr (Nat.le_add_right _ _))

/-- A commit of one page with a hole in it. -/
def holedRecord : WalRecord :=
  { seq := 1, prevSeq := 0, prevRoot := 0, root := 3, next := 4, pages := [(3, [7, 0, 0, 0, 9])] }

theorem scanRegion_records_holed :
    decodeRecordForVersion (encodeRecord 6 holedRecord) 6 = some holedRecord ∧
      scanRegion (regionWith 64 6 0 holedRecord) 64 6 0 =
        ([holedRecord], regionStart 64 0 + (encodeRecord 6 holedRecord).length) := by
  have encodable : holedRecord.Encodable 6 :=
    { seq_ne := by decide
      seq := by decide
      prevSeq := by decide
      prevRoot := by decide
      root := by decide
      next := by decide
      pages := by unfold PageFits; decide
      single := by decide
      length := by decide +kernel }
  have fits : (encodeRecord 6 holedRecord).length ≤ walRegionLen 64 := by decide +kernel
  have recovered := (scanRegion_records 6).2 (regionWith 64 6 0 holedRecord) 64 0 [holedRecord] _
    (by simpa using encodable) (.blank _) (read_regionWith _ fits)
  exact ⟨(scanRegion_records 6).1 holedRecord encodable, by simpa using recovered⟩

/-! ## A record too long for its length prefix -/

/-- A record of 4096 page images that encodes to exactly `2 ^ 32` bytes. -/
def hugeRecord : WalRecord :=
  { seq := 1, prevSeq := 0, prevRoot := 0, root := 0, next := 1
    pages := List.replicate 4095 (0, List.replicate (2 ^ 20 - 12) 1) ++
      [(1, List.replicate (2 ^ 20 - 68) 1)] }

theorem length_hugeRecord : (encodeRecord 5 hugeRecord).length = 2 ^ 32 := by
  have entry (id : Nat) (image : Bytes) :
      (encodePageEntry 5 (id, image)).length = 12 + image.length := by
    simp [encodePageEntry, holeElidedFormatVersion]
    omega
  rw [length_encodeRecord]
  simp only [hugeRecord, flatMap_append, length_append, List.length_flatMap,
    map_replicate, sum_replicate, flatMap_singleton, entry, length_replicate]
  decide

theorem scanLoop_of_zero (zero : readU32 (image.read offset 4) 0 = 0) (turns : Nat) :
    scanLoop image version stop turns offset = ([], offset) := by
  cases turns with
  | zero => rfl
  | succ turns => simp [scanLoop, zero]

/-- A record as long as the region of a very large page size fills it, but its length
wraps to zero and the scan finds nothing. -/
theorem scanRegion_hugeRecord : hugeRecord.seq ≠ 0 ∧ (∀ page ∈ hugeRecord.pages, PageFits page) ∧
      (regionWith (2 ^ 24) 5 0 hugeRecord).read (regionStart (2 ^ 24) 0) (walRegionLen (2 ^ 24)) =
        [hugeRecord].flatMap (encodeRecord 5) ++ [] ∧
      (scanRegion (regionWith (2 ^ 24) 5 0 hugeRecord) (2 ^ 24) 5 0).1 = [] := by
  have size := length_hugeRecord
  have region : walRegionLen (2 ^ 24) = 2 ^ 32 := by decide
  have whole := read_regionWith 0
    (show (encodeRecord 5 hugeRecord).length ≤ walRegionLen (2 ^ 24) by omega)
  have full : walRegionLen (2 ^ 24) - (encodeRecord 5 hugeRecord).length = 0 := by omega
  rw [full, replicate_zero] at whole
  refine ⟨by decide, ?_, whole, ?_⟩
  · intro page member
    simp only [hugeRecord, mem_append, mem_replicate, mem_singleton] at member
    rcases member with ⟨_, rfl⟩ | rfl
    · exact ⟨by decide, le_of_eq_of_le length_replicate (by decide)⟩
    · exact ⟨by decide, le_of_eq_of_le length_replicate (by decide)⟩
  · have zero : readU32 ((regionWith (2 ^ 24) 5 0 hugeRecord).read (regionStart (2 ^ 24) 0) 4) 0 =
        0 := by
      have header := read_of_read whole (show 4 ≤ walRegionLen (2 ^ 24) by omega)
      rw [header, append_nil, flatMap_singleton, encodeRecord_laid, size,
        take_left' (length_leBytes 4 _)]
      decide
    rw [scanRegion, scanLoop_of_zero zero]

end InlaySql.Wal
