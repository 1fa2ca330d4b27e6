import InlaySql.Btree.Growth

/-!
# Writing values and nodes back

A stored value is inline or an overflow chain on fresh pages. A changed node goes
back to its slot whole, or as two halves with a separator between them when it
outgrew its page: a cell is at most half a page, so both halves fit.
-/

namespace InlaySql.Btree

open List Lib Wal

/-! ## Every split fits -/

theorem sum_slots {α : Type} (size : α -> Nat) (cells : List α) :
    (cells.map fun cell => slotSize + size cell).sum =
      slotSize * cells.length + (cells.map size).sum := by
  simp only [slotSize]
  induction cells with
  | nil => simp
  | cons cell cells ih =>
    simp only [map_cons, sum_cons, length_cons, ih]
    omega

/-- Cells that each fit half a page and together exceed one page by at most half a
page split into two non-empty parts that fit. -/
theorem splitPoint_fits {α : Type} {pageSize : Nat} {cells : List α} {size : α -> Nat}
    (filled : cells ≠ [])
    (each : ∀ cell ∈ cells, headerSize + slotSize + size cell ≤ pageSize / 2)
    (exceeds : pageSize < headerSize + slotSize * cells.length + (cells.map size).sum)
    (bounded : headerSize + slotSize * cells.length + (cells.map size).sum ≤
      pageSize + pageSize / 2) :
    0 < splitPoint pageSize cells size ∧ splitPoint pageSize cells size < cells.length ∧
      headerSize + slotSize * (cells.take (splitPoint pageSize cells size)).length +
        ((cells.take (splitPoint pageSize cells size)).map size).sum ≤ pageSize ∧
      headerSize + slotSize * (cells.drop (splitPoint pageSize cells size)).length +
        ((cells.drop (splitPoint pageSize cells size)).map size).sum ≤ pageSize := by
  have header : headerSize = 16 := rfl
  have width : slotSize = 2 := rfl
  rw [Nat.add_assoc, <- sum_slots] at exceeds bounded
  -- Two cells at least: one alone fits.
  obtain ⟨first, second, rest, rfl⟩ : ∃ first second rest, cells = first :: second :: rest := by
    match cells with
    | [] => exact absurd rfl filled
    | [only] =>
      have fits := each only (by simp)
      simp only [map_cons, map_nil, sum_cons, sum_nil] at exceeds
      omega
    | first :: second :: rest => exact ⟨first, second, rest, rfl⟩
  have firstFits := each first (by simp)
  obtain ⟨taken, result, bound, within, next⟩ := splitLoop_spec pageSize size
    (first :: second :: rest).dropLast headerSize 0 (by omega)
  have point : splitPoint pageSize (first :: second :: rest) size = taken := by
    rw [splitPoint, result, Nat.zero_add]
  rw [point]
  rw [length_dropLast] at bound
  simp only [length_cons] at bound
  have positive : 0 < taken := by
    rcases Nat.eq_zero_or_pos taken with rfl | positive
    · have bigger := next first (by simp)
      simp at bigger
      omega
    · exact positive
  have less : taken < (first :: second :: rest).length := by
    simp only [length_cons]
    omega
  have prefixEq : ∀ count, count ≤ rest.length + 1 ->
      (first :: second :: rest).dropLast.take count = (first :: second :: rest).take count := by
    intro count small
    rw [dropLast_eq_take, take_take]
    congr 1
    simp only [length_cons]
    omega
  rw [prefixEq taken (by omega)] at within
  refine ⟨positive, less, by rw [Nat.add_assoc, <- sum_slots]; exact within, ?_⟩
  rw [Nat.add_assoc, <- sum_slots]
  have total : ((first :: second :: rest).map fun cell => slotSize + size cell).sum =
      (((first :: second :: rest).take taken).map fun cell => slotSize + size cell).sum +
        (((first :: second :: rest).drop taken).map fun cell => slotSize + size cell).sum := by
    rw [<- sum_append, <- map_append, take_append_drop]
  rcases Nat.lt_or_ge taken (rest.length + 1) with inner | last
  · -- The next cell did not fit, so the left part is more than half a page.
    have inside : taken < (first :: second :: rest).dropLast.length := by simp; omega
    have bigger := next _ (getElem?_eq_getElem inside)
    rw [prefixEq (taken + 1) (by omega), take_succ_eq_append_getElem less, map_append,
      sum_append] at bigger
    have cellFits := each _ (getElem_mem less)
    simp only [map_cons, map_nil, sum_cons, sum_nil] at bigger
    omega
  · -- Only the last cell is left over.
    have isLast : taken = rest.length + 1 := by omega
    have single : (first :: second :: rest).drop taken = [(first :: second :: rest)[taken]] := by
      rw [drop_eq_getElem_cons less]
      congr 1
      exact drop_eq_nil_of_le (by simp [isLast])
    have cellFits := each _ (getElem_mem less)
    rw [single]
    simp only [map_cons, map_nil, sum_cons, sum_nil]
    omega

namespace CowBTree

/-! ## Storing a value -/

theorem allocPages_eq (self : CowBTree) (count : Nat) :
    self.allocPages count = (List.range' self.pendingNext count,
      { self with pendingNext := self.pendingNext + count }) := by
  induction count generalizing self with
  | zero => rfl
  | succ count ih =>
    simp only [allocPages, allocPage, ih, range'_succ, Prod.mk.injEq, true_and]
    congr 1
    omega

/-- What writing a chain of overflow pages does. -/
structure Chained (before after : CowBTree) (start count : Nat) : Prop where
  only : after = { before with dirty := after.dirty }
  elsewhere : ∀ id, id < start ∨ start + count ≤ id -> after.dirty[id]? = before.dirty[id]?
  encoded : ∀ id, start ≤ id -> id < start + count ->
    ∃ bytes, after.dirty[id]? = some (.encoded bytes) ∧ bytes.length = before.pageSize

theorem writeChain_spec (committed : Pages) (count start : Nat) (value : Bytes) (self : CowBTree)
    (wide : overflowHeaderSize < self.pageSize)
    (enough : value.length ≤ count * overflowPayloadSize self.pageSize)
    (needed : count = 0 ∨ (count - 1) * overflowPayloadSize self.pageSize < value.length) :
    ∃ after, self.writeChain (List.range' start count)
        (chunks (overflowPayloadSize self.pageSize) count value) = .ok after ∧
      Chained self after start count ∧
      (0 < start -> start + count ≤ 2 ^ 64 ->
        Chain (after.pages committed) (overflowPayloadSize self.pageSize)
          ((List.range' start count).headD 0) value (Finset.Ico start (start + count))) := by
  have payload : 0 < overflowPayloadSize self.pageSize := by
    simp only [overflowPayloadSize]
    omega
  induction count generalizing start value self with
  | zero =>
    obtain rfl : value = [] := by simpa using enough
    refine ⟨self, rfl, ⟨rfl, fun _ _ => rfl, fun id low high => by omega⟩, ?_⟩
    intro _ _
    simpa using Chain.done 0
  | succ count ih =>
    have nonempty : value ≠ [] := by
      rintro rfl
      simp at needed
    have chunk : overflowHeaderSize + (value.take (overflowPayloadSize self.pageSize)).length ≤
        self.pageSize := by
      rw [length_take]
      simp only [overflowPayloadSize]
      omega
    obtain ⟨bytes, encoded, length, decoded⟩ :=
      decodeOverflow_encodeOverflow ((List.range' (start + 1) count).headD 0) chunk
    let linked : CowBTree := { self with dirty := self.dirty.insert start (.encoded bytes) }
    obtain ⟨after, written, chained, chain⟩ := ih (start + 1)
      (value.drop (overflowPayloadSize self.pageSize)) linked wide
      (by
        rw [length_drop]
        simp only [linked]
        rw [Nat.succ_mul] at enough
        omega)
      (by
        rcases Nat.eq_zero_or_pos count with rfl | positive
        · exact .inl rfl
        · refine .inr ?_
          rw [length_drop]
          simp only [linked, Nat.add_sub_cancel, Nat.add_one_ne_zero, false_or] at needed ⊢
          obtain ⟨less, rfl⟩ : ∃ less, count = less + 1 := ⟨count - 1, by omega⟩
          rw [Nat.succ_mul] at needed
          simp only [Nat.add_sub_cancel]
          omega)
      payload
    have here : after.dirty[start]? = some (.encoded bytes) := by
      rw [chained.elsewhere start (.inl (by omega))]
      simp [linked]
    refine ⟨after, ?_, ⟨chained.only, ?_, ?_⟩, ?_⟩
    · simp only [range'_succ, chunks, writeChain, encoded]
      exact written
    · intro id outside
      rw [chained.elsewhere id (by omega)]
      simp only [linked, Std.TreeMap.getElem?_insert, Nat.compare_eq_eq]
      rw [if_neg (by omega)]
    · intro id low high
      rcases Nat.eq_or_lt_of_le low with rfl | above
      · exact ⟨bytes, here, length⟩
      · exact chained.encoded id (by omega) (by omega)
    · intro positive room
      have nextSmall : (List.range' (start + 1) count).headD 0 < 2 ^ 64 := by
        cases count with
        | zero => simp
        | succ count =>
          rw [range'_succ]
          simp only [headD_cons]
          omega
      have rest := chain (by omega) (by omega)
      have ids : Finset.Ico start (start + (count + 1)) =
          insert start (Finset.Ico (start + 1) (start + 1 + count)) := by
        ext id
        simp only [Finset.mem_Ico, Finset.mem_insert]
        omega
      have size : after.pageSize = self.pageSize := by rw [chained.only]
      rw [ids, range'_succ, headD_cons]
      have read : (after.pages committed).overflow start = decodeOverflow self.pageSize bytes := by
        simp only [pages, readOverflowPage, here, size]
      have page := read.trans (decoded nextSmall)
      refine .link (by omega) page ?_ nonempty ?_ (by simp) rest
      · simp only [length_append, length_replicate, overflowPayloadSize] at chunk ⊢
        omega
      · by_cases long : overflowPayloadSize self.pageSize ≤ value.length
        · have exact_ : (value.take (overflowPayloadSize self.pageSize)).length =
              overflowPayloadSize self.pageSize := by
            rw [length_take]
            omega
          have none : self.pageSize - overflowHeaderSize -
              (value.take (overflowPayloadSize self.pageSize)).length = 0 := by
            rw [exact_, overflowPayloadSize]
            omega
          rw [none, replicate_zero, append_nil]
          exact take_of_length_le (by omega)
        · rw [take_of_length_le (show value.length ≤ _ by omega), take_left]

theorem keyFits_iff (pageSize : Nat) (key : Bytes) :
    keyFits pageSize key = true ↔ 16 + 2 + 2 + key.length + 1 + 16 ≤ pageSize / 2 ∧
      16 + 2 + 2 + key.length + 8 ≤ pageSize / 2 :=
  decide_eq_true_iff

theorem inlineEntryFits_iff (pageSize : Nat) (key value : Bytes) :
    inlineEntryFits pageSize key value = true ↔
      headerSize + slotSize + (2 + key.length + 1 + (4 + value.length)) ≤ pageSize / 2 :=
  decide_eq_true_iff

variable {self middle reserved : CowBTree} {entries : List (Bytes × Bytes)} {left : Nat}

theorem storeValue_spec (value : Bytes) (committed : Pages) {key : Bytes}
    (fits : keyFits self.pageSize key = true) (positive : 0 < self.pendingNext) :
    ∃ stored after, self.storeValue key value = .ok (stored, after) ∧ Grown self after ∅ ∧
      (inlineEntryFits self.pageSize key value = false ->
        ∃ first, stored = .overflow first value.length) ∧
      (∀ source, stored.Ranged source) ∧
      (∀ source, headerSize + slotSize + (stored.view source).cellSize key ≤ self.pageSize / 2) ∧
      (value.length ≤ maxRecordLen self.pageSize -> after.pendingNext ≤ 2 ^ 64 ->
        (self.Tidy -> after.Tidy) ∧ ∃ rests, (∀ source,
          ValueHolds self.pageSize (after.pages committed) (stored.view source) value rests) ∧ ∀ id ∈ rests, self.pendingNext ≤ id ∧ id < after.pendingNext) := by
  have limit : 37 + key.length ≤ self.pageSize / 2 := by
    have bounds := (keyFits_iff _ _).mp fits
    omega
  by_cases inline : inlineEntryFits self.pageSize key value = true
  · refine ⟨.owned value, self, by simp [storeValue, inline], Grown.refl _ _, by simp [inline],
      fun _ => trivial, fun _ => ?_, fun _ _ => ⟨id, ∅, fun _ => ⟨rfl, rfl⟩, by simp⟩⟩
    exact (inlineEntryFits_iff _ _ _).mp inline
  · have wide : overflowHeaderSize < self.pageSize := by
      simp only [overflowHeaderSize]
      omega
    have nonempty : value ≠ [] := by
      rintro rfl
      apply inline
      rw [inlineEntryFits_iff]
      simp only [headerSize, slotSize, length_nil]
      omega
    have filled : 0 < value.length := length_pos_iff.mpr nonempty
    let payload := overflowPayloadSize self.pageSize
    let count := chunkCount payload value
    have payloadPos : 0 < payload := by
      simp only [payload, overflowPayloadSize]
      omega
    have low : payload * count ≤ value.length + payload - 1 := Nat.mul_div_le _ _
    have high : value.length + payload - 1 < payload * (count + 1) :=
      Nat.lt_mul_div_succ _ payloadPos
    rw [Nat.mul_succ, Nat.mul_comm] at high
    rw [Nat.mul_comm] at low
    have countPos : 0 < count := by
      rcases Nat.eq_zero_or_pos count with zero | positive
      · rw [zero] at high
        omega
      · exact positive
    let allocated : CowBTree := { self with pendingNext := self.pendingNext + count }
    obtain ⟨after, written, chained, chain⟩ := writeChain_spec committed count self.pendingNext
      value allocated wide (by change value.length ≤ count * payload; omega)
      (.inr (by
        change (count - 1) * payload < value.length
        rw [Nat.sub_mul]
        omega))
    have size : after.pageSize = self.pageSize := by rw [chained.only]
    have next : after.pendingNext = self.pendingNext + count := by rw [chained.only]
    refine ⟨.overflow ((List.range' self.pendingNext count).headD 0) value.length, after, ?_, ?_,
      fun _ => ⟨_, rfl⟩, fun _ => trivial, fun _ => ?_, fun short room => ⟨fun tidy => ?_,
        Finset.Ico self.pendingNext (self.pendingNext + count), fun _ => ?_, ?_⟩⟩
    · simp only [storeValue, inline, allocPages_eq]
      change (allocated.writeChain (List.range' self.pendingNext count)
        (chunks payload count value) >>= _) = _
      rw [written]
      rfl
    · refine ⟨size, by rw [chained.only], by rw [chained.only], by rw [chained.only],
        by rw [chained.only], by rw [chained.only], by omega, ?_, ?_⟩
      · intro id old _
        exact chained.elsewhere id (.inl old)
      · intro id old member
        rw [Std.TreeMap.mem_iff_isSome_getElem?, chained.elsewhere id (.inl old)] at member
        rwa [Std.TreeMap.mem_iff_isSome_getElem?]
    · simp only [ValueRef.view, ValueView.cellSize, headerSize, slotSize]
      omega
    · -- Only the chain's own pages are new, and they are whole encoded pages.
      have cases : ∀ (id : Nat) page, after.dirty[id]? = some page ->
          self.dirty[id]? = some page ∨ (id < after.pendingNext ∧ ∃ bytes : Bytes,
            page = .encoded bytes ∧ bytes.length = self.pageSize) := by
        intro id page found
        by_cases own : self.pendingNext ≤ id ∧ id < self.pendingNext + count
        · obtain ⟨bytes, isBytes, length⟩ := chained.encoded id own.1 own.2
          rw [isBytes] at found
          exact .inr ⟨by omega, bytes, by simpa using found.symm, length⟩
        · rw [chained.elsewhere id (by omega)] at found
          exact .inl found
      refine ⟨?_, ?_, ?_⟩
      · intro id page found
        rcases cases id page found with old | new
        · exact (tidy.below id page old).trans_le (by omega)
        · exact new.1
      · intro id node found
        rcases cases id _ found with old | ⟨-, bytes, isBytes, -⟩
        · have kept := tidy.decoded id node old
          exact ⟨size ▸ kept.1, kept.2.mono (by omega)⟩
        · simp at isBytes
      · intro id bytes found
        rcases cases id _ found with old | ⟨-, other, isBytes, length⟩
        · exact size ▸ tidy.encoded id bytes old
        · obtain rfl : bytes = other := by simpa using isBytes
          exact size ▸ length
    · exact ⟨nonempty, rfl, short, chain positive (by omega)⟩
    · intro id member
      rw [Finset.mem_Ico] at member
      omega

/-! ## Writing a node back -/

/-- The first page of an outcome and the separators behind it. -/
def InsertOutcome.child : InsertOutcome -> Nat
  | .replaced id => id
  | .split left _ _ => left

def InsertOutcome.cells : InsertOutcome -> List (Bytes × Nat)
  | .replaced _ => []
  | .split _ right separator => [(separator, right)]

/-- What a write makes of a subtree: a spine over the subtree's own pages and fresh
ones. -/
structure Yields (committed : Pages) (before after : CowBTree) (owned : Finset Nat)
    (height : Nat) (low high : Option Bytes) (child : Nat) (cells : List (Bytes × Nat))
    (entries : List (Bytes × Bytes)) : Prop where
  tidy : after.Tidy
  spine : ∃ rests,
    Spine (Subtree before.pageSize (after.pages committed) height) low high child cells entries
      rests ∧ ∀ id ∈ rests, id ∈ owned ∨ (before.pendingNext ≤ id ∧ id < after.pendingNext)

theorem Yields.before {committed : Pages} {before after : CowBTree}
    {owned held changed : Finset Nat} {height : Nat} {low high : Option Bytes} {child : Nat}
    {cells : List (Bytes × Nat)}
    (yields : Yields committed middle after held height low high child cells entries)
    (grown : Grown before middle changed) (next : middle.pendingNext ≤ after.pendingNext)
    (within : ∀ id ∈ held, id ∈ owned ∨ (before.pendingNext ≤ id ∧ id < middle.pendingNext)) :
    Yields committed before after owned height low high child cells entries := by
  obtain ⟨tidy, rests, spine, from_⟩ := yields
  refine ⟨tidy, rests, grown.pageSize ▸ spine, ?_⟩
  intro id member
  have first := grown.next_le
  rcases from_ id member with inHeld | fresh
  · exact (within id inHeld).imp_right fun fresh => ⟨fresh.1, fresh.2.trans_le next⟩
  · exact .inr ⟨first.trans fresh.1, fresh.2⟩

/-- Reserving the right half's page leaves the node where it was. The second slot is
fresh, whatever it is taken to be a version of. -/
theorem reserve_slotted (committed : Pages) {before slotted : CowBTree} {source : Nat}
    (slot : Slotted before slotted source left) (whole half : Node) :
    ∃ reserved, slotted.reserveSplitPage committed left whole =
        .ok (slotted.pendingNext, whole, reserved) ∧ reserved.pageSize = before.pageSize ∧
      ∀ any, Slotted (slotted.putNode left half) (reserved.putNode left half) any
        slotted.pendingNext := by
  have stored : (slotted.putNode left whole).dirty[left]? = some (.decoded whole) := by
    have sets := putNode_sets slotted left whole left
    rwa [if_pos rfl] at sets
  let reserved : CowBTree := { slotted.putNode left whole with
    pendingNext := slotted.pendingNext + 1
    dirty := (slotted.putNode left whole).dirty.erase left }
  refine ⟨reserved, ?_, slot.pageSize, fun any => ⟨rfl, rfl, rfl, rfl, rfl, rfl, ?_, .inr ⟨rfl, rfl⟩⟩⟩
  · simp only [reserveSplitPage, allocPage, takeNodeForWrite, stored]
    rfl
  · intro other _
    rw [putNode_sets reserved left half other, putNode_sets slotted left half other]
    by_cases same : other = left
    · rw [if_pos same, if_pos same]
    · rw [if_neg same, if_neg same]
      simp only [reserved]
      rw [getElem?_erase_of_ne same, putNode_sets slotted left whole other, if_neg same]

theorem Slotted.halves_grown {before slotted : CowBTree} {source : Nat}
    (slot : Slotted before slotted source left) {half other : Node}
    (second : ∀ any, Slotted (slotted.putNode left half) reserved any slotted.pendingNext) :
    Grown before (reserved.putNode slotted.pendingNext other) {source} := by
  refine (slot.put_grown half).trans ((second slotted.pendingNext).put_grown other) ?_
  intro id member old
  rw [Finset.mem_singleton] at member
  have := slot.next_le
  omega

section Put

variable {before slotted : CowBTree} {source newId height : Nat} {low high : Option Bytes}
  {contents : List (Bytes × Bytes)} {below : Finset Nat}

section

variable (slot : Slotted before slotted source newId)

include slot

theorem Slotted.newId_ne_zero (valid : source ≠ 0) (positive : 0 < before.pendingNext) :
    newId ≠ 0 := by
  rcases slot.fresh with rfl | rfl <;> omega

theorem Slotted.newId_notMem (old : ∀ id ∈ below, id < before.pendingNext)
    (outside : source ∉ below) : newId ∉ below := by
  intro member
  rcases slot.fresh with rfl | rfl
  · exact outside member
  · exact absurd (old _ member) (lt_irrefl _)

theorem Slotted.rests_within (issued : source < before.pendingNext) : ∀ id ∈ insert newId below,
      id ∈ insert source below ∨ (before.pendingNext ≤ id ∧ id < slotted.pendingNext) := by
  intro id member
  rcases Finset.mem_insert.mp member with rfl | inBelow
  · rcases slot.fresh with rfl | fresh
    · exact .inl (Finset.mem_insert_self _ _)
    · exact .inr ⟨fresh.ge, slot.newId_lt issued⟩
  · exact .inl (Finset.mem_insert_of_mem inBelow)

theorem Slotted.put_keeps (committed : Pages) (node : Node)
    (old : ∀ id ∈ below, id < before.pendingNext) (outside : source ∉ below) :
    (before.pages committed).Keeps ((slotted.putNode newId node).pages committed) below := by
  refine (slot.put_grown node).keeps committed fun id member => ⟨old id member, ?_⟩
  rw [Finset.mem_singleton]
  rintro rfl
  exact outside member

theorem Slotted.put_leaf (committed : Pages) (nonzero : newId ≠ 0) {bytes : Bytes}
    {entries : List Entry} (ranged : ∀ entry ∈ entries, entry.value.Ranged bytes)
    (filled : entries ≠ []) (size : leafSize bytes entries ≤ before.pageSize)
    (held : Held before.pageSize (before.pages committed) (entries.map (Entry.view bytes)) contents
      below) (fenced : Fenced low high contents) (old : ∀ id ∈ below, id < before.pendingNext)
    (outside : source ∉ below) :
    Subtree before.pageSize ((slotted.putNode newId (.leaf bytes entries)).pages committed) 1
      newId low high contents (insert newId below) := by
  refine .inr ⟨below, nonzero, rfl, slot.newId_notMem old outside,
    .inl ⟨entries.map (Entry.view bytes), ?_, by simpa using filled, ?_, fenced, ?_⟩⟩
  · exact slot.put_shows committed (.leaf bytes entries) ranged
  · rw [<- leafSize_eq ranged]
    exact size
  · exact held.frame (slot.put_keeps committed _ old outside)

end

variable {bytes : Bytes} {leftmost : Nat} {cells : List Separator}

theorem leaf_below (before : CowBTree) {committed : Pages} {entries : List Entry}
    (page : before.pageSize < 2 ^ 16)
    (held : Held before.pageSize (before.pages committed) (entries.map (Entry.view bytes)) contents
      below) (old : ∀ id ∈ below, id < before.pendingNext) :
    (Node.leaf bytes entries).view.Below before.pendingNext := by
  intro cell member
  have named := held.first_mem cell member
  cases isView : cell.2 with
  | inline bytes => trivial
  | overflow first length =>
    obtain ⟨inBelow, short⟩ := named first length isView
    refine ⟨old first inBelow, ?_⟩
    simp only [maxRecordLen, walRegionLen, walBlocks] at short
    omega

theorem Slotted.put_inner (slot : Slotted before slotted source newId) (committed : Pages)
    (nonzero : newId ≠ 0) (size : internalSize bytes cells ≤ before.pageSize)
    (fits : ∀ cell ∈ cells.map (Separator.view bytes), keyFits before.pageSize cell.1 = true)
    (spine : Spine (Subtree before.pageSize (before.pages committed) height) low high leftmost
      (cells.map (Separator.view bytes)) contents below)
    (old : ∀ id ∈ below, id < before.pendingNext) (outside : source ∉ below) :
    Subtree before.pageSize
      ((slotted.putNode newId (.internal bytes leftmost cells)).pages committed) (height + 1)
      newId low high contents (insert newId below) := by
  refine .inr ⟨below, nonzero, rfl, slot.newId_notMem old outside,
    .inr ⟨leftmost, cells.map (Separator.view bytes), ?_, ?_, fits, ?_⟩⟩
  · exact slot.put_shows committed (.internal bytes leftmost cells) trivial
  · rw [<- internalSize_eq]
    exact size
  · refine spine.frame fun _ _ _ _ part within subtree => subtree.frame ?_
    exact (slot.put_keeps committed _ old outside).mono within

theorem inner_below (before : CowBTree) {committed : Pages}
    (spine : Spine (Subtree before.pageSize (before.pages committed) height) low high leftmost
      (cells.map (Separator.view bytes)) contents below)
    (old : ∀ id ∈ below, id < before.pendingNext) (positive : 0 < before.pendingNext) :
    (Node.internal bytes leftmost cells).view.Below before.pendingNext := by
  have named := Spine.child_mem spine
  have issued : ∀ id, id = 0 ∨ id ∈ below -> id < before.pendingNext := by
    rintro id (rfl | member)
    · exact positive
    · exact old id member
  exact ⟨issued _ named.1, fun cell member => issued _ (named.2 cell member)⟩

end Put

theorem Slotted.halves_yield {committed : Pages} {before slotted : CowBTree} {source height : Nat}
    {low high : Option Bytes} {separator : Bytes} {front back : List (Bytes × Bytes)}
    {leftBelow rightBelow : Finset Nat} {half other : Node}
    (slot : Slotted before slotted source left) (issued : source < before.pendingNext)
    (second : ∀ any, Slotted (slotted.putNode left half) reserved any slotted.pendingNext)
    (tidy : (reserved.putNode slotted.pendingNext other).Tidy) (parts : Parts low high separator)
    (leftTree : Subtree before.pageSize ((slotted.putNode left half).pages committed) height left
      low (some separator) front (insert left leftBelow))
    (rightTree : Subtree before.pageSize ((reserved.putNode slotted.pendingNext other).pages
      committed) height slotted.pendingNext (some separator) high back (insert slotted.pendingNext
      rightBelow)) (old : ∀ id ∈ leftBelow ∪ rightBelow, id < before.pendingNext)
    (outside : source ∉ leftBelow ∪ rightBelow) (apart : Disjoint leftBelow rightBelow) :
    Yields committed before (reserved.putNode slotted.pendingNext other)
      (insert source (leftBelow ∪ rightBelow)) height low high left
      [(separator, slotted.pendingNext)] (front ++ back) := by
  have grows := slot.next_le
  have leftId := slot.newId_lt issued
  have next := (second slotted.pendingNext).newId_lt
  have leftOutside := slot.newId_notMem old outside
  rw [Finset.mem_union, not_or] at leftOutside
  have rightNext : slotted.pendingNext < (reserved.putNode slotted.pendingNext other).pendingNext := by
    rcases (second slotted.pendingNext).place with ⟨-, -, same⟩ | ⟨-, more⟩
    · exact absurd ((second left).newId_lt leftId) (by
        rw [same]
        exact lt_irrefl _)
    · change slotted.pendingNext < reserved.pendingNext
      rw [more]
      exact Nat.lt_succ_self _
  have rightOutside : slotted.pendingNext ∉ leftBelow ∪ rightBelow := fun member =>
    absurd (old _ member) (by omega)
  rw [Finset.mem_union, not_or] at rightOutside
  have leftKept := leftTree.frame ((second slotted.pendingNext).put_keeps committed other
    (fun id member => by
      rcases Finset.mem_insert.mp member with rfl | inBelow
      · exact leftId
      · exact (old id (Finset.mem_union_left _ inBelow)).trans_le grows)
    (fun member => by
      rcases Finset.mem_insert.mp member with isLeft | inBelow
      · omega
      · exact rightOutside.1 inBelow))
  refine ⟨tidy, _, .cons parts leftKept (.last rightTree) ?_, ?_⟩
  · rw [Finset.disjoint_insert_left, Finset.disjoint_insert_right, Finset.mem_insert, not_or]
    exact ⟨⟨by omega, leftOutside.2⟩, rightOutside.1, apart⟩
  · intro id member
    simp only [Finset.mem_union, Finset.mem_insert] at member ⊢
    rcases member with (rfl | inLeft) | rfl | inRight
    · rcases slot.fresh with rfl | fresh
      · exact .inl (.inl rfl)
      · exact .inr ⟨fresh.ge, by omega⟩
    · exact .inl (.inr (.inl inLeft))
    · exact .inr ⟨grows, rightNext⟩
    · exact .inl (.inr (.inr inRight))

theorem below_halves {left right : Finset Nat} {next id : Nat}
    (old : ∀ other ∈ left ∪ right, other < next) (outside : id ∉ left ∪ right) :
    ((∀ other ∈ left, other < next) ∧ id ∉ left) ∧ (∀ other ∈ right, other < next) ∧ id ∉ right := by
  simp only [Finset.mem_union, not_or] at old outside
  exact ⟨⟨fun _ member => old _ (.inl member), outside.1⟩,
    fun _ member => old _ (.inr member), outside.2⟩

section

variable (committed : Pages) {before taken slotted : CowBTree}

include committed

variable {wasDirty : Bool}

/-- A leaf whose cells exceed a page by at most half of one is written back whole or
as two halves, with the first key of the right half between them. -/
theorem settleLeaf_spec {id newId : Nat} {bytes : Bytes} {entries : List Entry}
    (slot : Slotted before slotted id newId) (isSlot : taken.slotFor id wasDirty = (newId, slotted))
    (takenSize : taken.pageSize = before.pageSize) (page : before.pageSize < 2 ^ 16)
    (valid : id ≠ 0) (issued : id < before.pendingNext)
    (ranged : ∀ entry ∈ entries, entry.value.Ranged bytes) (filled : entries ≠ [])
    (each : ∀ cell ∈ entries.map (Entry.view bytes), keyFits before.pageSize cell.1 = true ∧
      headerSize + slotSize + cell.2.cellSize cell.1 ≤ before.pageSize / 2)
    (bounded : leafSize bytes entries ≤ before.pageSize + before.pageSize / 2) :
    ∃ outcome after, taken.settleLeaf committed id wasDirty bytes entries = .ok (outcome, after) ∧
      Grown before after {id} ∧ (∀ cell ∈ outcome.cells, keyFits before.pageSize cell.1 = true) ∧
      ∀ low high contents below, before.Tidy ->
        Held before.pageSize (before.pages committed) (entries.map (Entry.view bytes)) contents
          below ->
        Fenced low high contents -> (∀ other ∈ below, other < before.pendingNext) -> id ∉ below ->
        Yields committed before after (insert id below) 1 low high outcome.child outcome.cells
          contents := by
  have nonzero := slot.newId_ne_zero valid (Nat.zero_lt_of_lt issued)
  by_cases whole : leafSize bytes entries ≤ before.pageSize
  · refine ⟨.replaced newId, slotted.putNode newId (.leaf bytes entries), ?_, slot.put_grown _,
      by simp [InsertOutcome.cells], ?_⟩
    · rw [settleLeaf, takenSize, if_pos whole, isSlot]
    · intro low high contents below tidy held fenced old outside
      have names := leaf_below before page held old
      refine ⟨slot.put_tidy tidy issued _ ⟨ranged, whole⟩ (names.mono slot.next_le),
        insert newId below, ?_, slot.rests_within issued⟩
      exact .last (slot.put_leaf committed nonzero ranged filled whole held fenced old outside)
  · -- Too large for one page: cut at the split point.
    have small : ∀ entry ∈ entries, headerSize + slotSize +
        leafCellSize (keyBytes bytes entry.key) entry.value ≤ before.pageSize / 2 := by
      intro entry member
      rw [leafCellSize_eq (ranged entry member)]
      exact (each _ (mem_map_of_mem member)).2
    obtain ⟨mid, isMid, midPos, midLess, leftSize, rightSize⟩ :
        ∃ mid, leafSplitPoint bytes entries before.pageSize = mid ∧ 0 < mid ∧ mid < entries.length ∧
          leafSize bytes (entries.take mid) ≤ before.pageSize ∧
          leafSize bytes (entries.drop mid) ≤ before.pageSize :=
      ⟨_, rfl, splitPoint_fits filled small (Nat.lt_of_not_le whole) bounded⟩
    let leftNode : Node := .leaf bytes (entries.take mid)
    let rightNode : Node := .leaf bytes (entries.drop mid)
    obtain ⟨reserved, isReserved, reservedSize, second⟩ :=
      reserve_slotted committed slot (.leaf bytes entries) leftNode
    have inside : mid < (entries.map (Entry.view bytes)).length := by simpa using midLess
    have isSeparator : entryKey bytes (entries.drop mid) 0 =
        (entries.map (Entry.view bytes))[mid].1 := by
      simp [entryKey, Entry.view, getElem?_eq_getElem midLess]
    refine ⟨.split newId slotted.pendingNext (entryKey bytes (entries.drop mid) 0),
      (reserved.putNode newId leftNode).putNode slotted.pendingNext rightNode, ?_,
      slot.halves_grown second, ?_, ?_⟩
    · rw [settleLeaf, takenSize, if_neg whole, isSlot]
      change (slotted.reserveSplitPage committed newId (.leaf bytes entries) >>= _) = _
      rw [isReserved]
      simp only [bind, Except.bind, reservedSize, isMid]
      rfl
    · simp only [InsertOutcome.cells, mem_singleton, forall_eq, isSeparator]
      exact (each _ (getElem_mem inside)).1
    intro low high contents below tidy held fenced old outside
    obtain ⟨left, right, leftBelow, rightBelow, rfl, rfl, apart, leftHeld, rightHeld,
      parts, leftFenced, rightFenced⟩ := held.halve fenced midPos inside
    rw [<- isSeparator] at parts leftFenced rightFenced
    rw [<- map_take] at leftHeld
    rw [<- map_drop] at rightHeld
    obtain ⟨⟨leftOld, leftOutside⟩, rightOld, rightOutside⟩ := below_halves old outside
    have leftRanged : ∀ entry ∈ entries.take mid, entry.value.Ranged bytes := fun entry member =>
      ranged entry (mem_of_mem_take member)
    have rightRanged : ∀ entry ∈ entries.drop mid, entry.value.Ranged bytes := fun entry member =>
      ranged entry (mem_of_mem_drop member)
    have leftFilled : entries.take mid ≠ [] := by
      rw [Ne, take_eq_nil_iff, not_or]
      exact ⟨midPos.ne', filled⟩
    have leftTree := slot.put_leaf committed nonzero leftRanged leftFilled leftSize leftHeld
      leftFenced leftOld leftOutside
    have leftTidy : (slotted.putNode newId leftNode).Tidy :=
      slot.put_tidy tidy issued leftNode ⟨leftRanged, leftSize⟩
        ((leaf_below before page leftHeld leftOld).mono slot.next_le)
    have midOld : ∀ other ∈ rightBelow, other < (slotted.putNode newId leftNode).pendingNext :=
      fun other member => (rightOld other member).trans_le slot.next_le
    have midHeld := rightHeld.frame (slot.put_keeps committed leftNode rightOld rightOutside)
    rw [<- slot.pageSize] at midHeld page rightSize
    have rightNames : rightNode.view.Below slotted.pendingNext :=
      leaf_below (slotted.putNode newId leftNode) page midHeld midOld
    have rightTree := (second slotted.pendingNext).put_leaf committed
      (Nat.ne_of_gt (Nat.zero_lt_of_lt (slot.newId_lt issued)))
      rightRanged (by simp; omega) rightSize midHeld rightFenced midOld
      (fun member => absurd (midOld _ member) (lt_irrefl _))
    have rightTidy := (second newId).put_tidy leftTidy (slot.newId_lt issued) rightNode
      ⟨rightRanged, rightSize⟩ (rightNames.mono (second newId).next_le)
    exact slot.halves_yield issued second rightTidy parts leftTree
      (slot.pageSize ▸ rightTree) old outside apart

/-- An inner node whose cells exceed a page by at most half of one is written back
whole or as two halves; the separator between them leaves the node. -/
theorem settleInternal_spec {id newId leftmost : Nat} {bytes : Bytes} {cells : List Separator}
    (slot : Slotted before slotted id newId) (isSlot : taken.slotFor id wasDirty = (newId, slotted))
    (takenSize : taken.pageSize = before.pageSize) (valid : id ≠ 0)
    (issued : id < before.pendingNext) (filled : cells ≠ [])
    (fits : ∀ cell ∈ cells.map (Separator.view bytes), keyFits before.pageSize cell.1 = true)
    (bounded : internalSize bytes cells ≤ before.pageSize + before.pageSize / 2) :
    ∃ outcome after,
      taken.settleInternal committed id wasDirty bytes leftmost cells = .ok (outcome, after) ∧
      Grown before after {id} ∧ (∀ cell ∈ outcome.cells, keyFits before.pageSize cell.1 = true) ∧
      ∀ height low high contents below, before.Tidy ->
        Spine (Subtree before.pageSize (before.pages committed) height) low high leftmost
          (cells.map (Separator.view bytes)) contents below ->
        (∀ other ∈ below, other < before.pendingNext) -> id ∉ below ->
        Yields committed before after (insert id below) (height + 1) low high outcome.child
          outcome.cells contents := by
  have positive : 0 < before.pendingNext := by omega
  have nonzero := slot.newId_ne_zero valid positive
  by_cases whole : internalSize bytes cells ≤ before.pageSize
  · refine ⟨.replaced newId, slotted.putNode newId (.internal bytes leftmost cells), ?_,
      slot.put_grown _, by simp [InsertOutcome.cells], ?_⟩
    · rw [settleInternal, takenSize, if_pos whole, isSlot]
    · intro height low high contents below tidy spine old outside
      have names := inner_below before spine old positive
      refine ⟨slot.put_tidy tidy issued _ whole (names.mono slot.next_le), insert newId below, ?_,
        slot.rests_within issued⟩
      exact .last (slot.put_inner committed nonzero whole fits spine old outside)
  · -- Too large for one page: cut at the split point.
    have small : ∀ cell ∈ cells, headerSize + slotSize +
        internalCellSize (keyBytes bytes cell.key) ≤ before.pageSize / 2 := by
      intro cell member
      have fit := (keyFits_iff _ _).mp (fits _ (mem_map_of_mem member))
      simp only [headerSize, slotSize, internalCellSize, Separator.view] at fit ⊢
      omega
    obtain ⟨mid, isMid, midPos, midLess, leftSize, rightSize⟩ :
        ∃ mid, internalSplitPoint bytes cells before.pageSize = mid ∧ 0 < mid ∧ mid < cells.length ∧
          internalSize bytes (cells.take mid) ≤ before.pageSize ∧
          internalSize bytes (cells.drop mid) ≤ before.pageSize :=
      ⟨_, rfl, splitPoint_fits filled small (Nat.lt_of_not_le whole) bounded⟩
    let leftNode : Node := .internal bytes leftmost (cells.take mid)
    let rightNode : Node := .internal bytes (((cells.drop mid).head?.map Separator.child).getD 0)
      (cells.drop mid).tail
    obtain ⟨reserved, isReserved, reservedSize, second⟩ :=
      reserve_slotted committed slot (.internal bytes leftmost cells) leftNode
    have isSeparator : separatorKey bytes (cells.drop mid) 0 = keyBytes bytes cells[mid].key := by
      simp [separatorKey, getElem?_eq_getElem midLess]
    refine ⟨.split newId slotted.pendingNext (separatorKey bytes (cells.drop mid) 0),
      (reserved.putNode newId leftNode).putNode slotted.pendingNext rightNode, ?_,
      slot.halves_grown second, ?_, ?_⟩
    · rw [settleInternal, takenSize, if_neg whole, isSlot]
      change (slotted.reserveSplitPage committed newId (.internal bytes leftmost cells) >>= _) = _
      rw [isReserved]
      simp only [bind, Except.bind, reservedSize, isMid]
      rfl
    · simp only [InsertOutcome.cells, mem_singleton, forall_eq, isSeparator]
      exact fits _ (mem_map_of_mem (getElem_mem midLess))
    intro height low high contents below tidy spine old outside
    have pivot := drop_eq_getElem_cons midLess
    have parted : cells.map (Separator.view bytes) =
        (cells.take mid).map (Separator.view bytes) ++ Separator.view bytes cells[mid] ::
          (cells.drop (mid + 1)).map (Separator.view bytes) := by
      rw [<- map_cons, <- pivot, <- map_append, take_append_drop]
    have isRight : rightNode = .internal bytes cells[mid].child (cells.drop (mid + 1)) := by
      simp only [rightNode]
      rw [pivot]
      rfl
    rw [parted] at spine fits
    obtain ⟨left, right, leftBelow, rightBelow, leftSpine, rightSpine, rfl, rfl, apart, parts⟩ :=
      spine.cut
    obtain ⟨⟨leftOld, leftOutside⟩, rightOld, rightOutside⟩ := below_halves old outside
    have grows := slot.next_le
    have leftTree := slot.put_inner committed nonzero leftSize
      (fun cell member => fits cell (mem_append_left _ member)) leftSpine leftOld leftOutside
    have leftTidy : (slotted.putNode newId leftNode).Tidy :=
      slot.put_tidy tidy issued leftNode leftSize
        ((inner_below before leftSpine leftOld positive).mono grows)
    have midOld : ∀ other ∈ rightBelow, other < (slotted.putNode newId leftNode).pendingNext :=
      fun other member => (rightOld other member).trans_le grows
    have midSpine : Spine (Subtree slotted.pageSize
        ((slotted.putNode newId leftNode).pages committed) height)
        (some (Separator.view bytes cells[mid]).1) high cells[mid].child
        ((cells.drop (mid + 1)).map (Separator.view bytes)) right rightBelow := by
      rw [slot.pageSize]
      refine rightSpine.frame fun _ _ _ _ part within subtree => subtree.frame ?_
      exact (slot.put_keeps committed leftNode rightOld rightOutside).mono within
    have restSize : internalSize bytes (cells.drop (mid + 1)) ≤ slotted.pageSize := by
      rw [pivot] at rightSize
      rw [slot.pageSize]
      simp only [internalSize, map_cons, sum_cons, length_cons, slotSize] at rightSize ⊢
      omega
    have rightTree := (second slotted.pendingNext).put_inner committed (by omega) restSize
      (fun cell member => slot.pageSize.symm ▸ fits cell
        (mem_append_right _ (mem_cons_of_mem _ member))) midSpine midOld
      (fun member => absurd (midOld _ member) (lt_irrefl _))
    have rightNames : rightNode.view.Below slotted.pendingNext := by
      rw [isRight]
      exact inner_below (slotted.putNode newId leftNode) midSpine midOld (by
        change 0 < slotted.pendingNext
        omega)
    have rightTidy := (second newId).put_tidy leftTidy (slot.newId_lt issued) rightNode (by
      rw [isRight]
      exact restSize) (rightNames.mono (second newId).next_le)
    simp only [InsertOutcome.child, InsertOutcome.cells, isSeparator]
    rw [isRight] at rightTidy ⊢
    exact slot.halves_yield issued second rightTidy parts leftTree
      (slot.pageSize ▸ rightTree) old outside apart

end

/-! ## A child written back -/

theorem respliced {committed : Pages} {branch : Branch} {key bytes : Bytes}
    {leftmost height taller newChild : Nat} {cells : List Separator} {inserted : List (Bytes × Nat)}
    {low high : Option Bytes} {contents : List (Bytes × Bytes)} {below : Finset Nat}
    (routed : branch.Routed self.pageSize (self.pages committed) height key bytes leftmost cells low
      high contents below) (grown : Grown self middle branch.childRests)
    (issued : ∀ id ∈ below, id < self.pendingNext)
    (yields : Yields committed self middle branch.childRests taller branch.low branch.high newChild
      inserted entries) :
    ∃ tallest rests, Spine (Subtree self.pageSize (middle.pages committed) tallest) low high
        (spliceChild leftmost (cells.map (Separator.view bytes)) newChild inserted
          (childIndex bytes cells key)).1
        (spliceChild leftmost (cells.map (Separator.view bytes)) newChild inserted
          (childIndex bytes cells key)).2
        (branch.front ++ entries ++ branch.back) rests ∧
      ∀ id ∈ rests, id ∈ below ∨ (self.pendingNext ≤ id ∧ id < middle.pendingNext) := by
  obtain ⟨-, newRests, spine, origin⟩ := yields
  have inBelow : ∀ id ∈ branch.otherRests, id ∈ below := fun id member =>
    routed.rests ▸ Finset.mem_union_left _ member
  have apart : Disjoint branch.otherRests newRests := by
    rw [Finset.disjoint_left]
    intro id inOther inNew
    rcases origin id inNew with inChild | fresh
    · exact Finset.disjoint_left.mp routed.apart inOther inChild
    · exact absurd (issued id (inBelow id inOther)) (by omega)
  obtain ⟨tallest, whole⟩ := routed.replace (middle.pages committed) taller newChild inserted
    entries newRests (grown.keeps committed fun id member => ⟨issued id (inBelow id member),
      Finset.disjoint_left.mp routed.apart member⟩) spine apart
  refine ⟨tallest, _, whole, ?_⟩
  intro id member
  rcases Finset.mem_union.mp member with inOther | inNew
  · exact .inl (inBelow id inOther)
  · refine (origin id inNew).imp_left fun inChild => ?_
    exact routed.rests ▸ Finset.mem_union_right _ inChild

end CowBTree

end InlaySql.Btree
