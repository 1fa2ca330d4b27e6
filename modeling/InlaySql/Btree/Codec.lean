import InlaySql.Btree.View

/-!
# The page codec round trip

Encoding a node whose computed size fits its page succeeds, and decoding the page
gives a node that says the same. `Laid` is what the writer leaves behind: each cell
at the place its slot names, packed from the end of the page.
-/

namespace InlaySql.Btree

open List Lib

/-! ## Overflow pages -/

variable {bytes : Bytes} {offset value pageSize : Nat} {buffer : Bytes} {α : Type} {slot : Nat}
  {cells : List Bytes} {items : List α}

theorem getU64_of_slice (inside : offset + 8 ≤ bytes.length)
    (field : slice bytes offset 8 = leBytes 8 value) (small : value < 2 ^ 64) :
    getU64 bytes offset = .ok value := by
  simp only [getU64, slice?_eq_some inside, field]
  rw [ofLe_leBytes (by simpa using small)]

theorem getU16_of_slice (inside : offset + 2 ≤ bytes.length)
    (field : slice bytes offset 2 = leBytes 2 value) (small : value < 2 ^ 16) :
    getU16 bytes offset = .ok value := by
  simp only [getU16, slice?_eq_some inside, field]
  rw [ofLe_leBytes (by simpa using small)]

theorem getElem?_of_slice {byte : UInt8} (field : slice bytes offset 1 = [byte]) :
    bytes[offset]? = some byte := by
  have first := congrArg (fun part : Bytes => part[0]?) field
  simpa [getElem?_slice] using first

theorem decodeOverflow_encodeOverflow (next : Nat) {data : Bytes}
    (fits : overflowHeaderSize + data.length ≤ pageSize) :
    ∃ bytes, encodeOverflow pageSize next data = .ok bytes ∧ bytes.length = pageSize ∧
      (next < 2 ^ 64 -> decodeOverflow pageSize bytes =
        .ok (next, data ++ List.replicate (pageSize - overflowHeaderSize - data.length) 0)) := by
  have header : overflowHeaderSize = 9 := rfl
  let zeroed : Bytes := List.replicate pageSize 0
  let tagged := writeAt zeroed offKind [kindOverflow]
  let linked := writeAt tagged offOverflowNext (leBytes 8 next)
  let page := writeAt linked overflowHeaderSize data
  have zeroedLength : zeroed.length = pageSize := by simp [zeroed]
  have taggedInside : offKind + [kindOverflow].length ≤ zeroed.length := by
    simp [zeroedLength, offKind]
    omega
  have taggedLength : tagged.length = pageSize := (length_writeAt taggedInside).trans zeroedLength
  have linkedInside : offOverflowNext + (leBytes 8 next).length ≤ tagged.length := by
    simp [taggedLength, offOverflowNext]
    omega
  have linkedLength : linked.length = pageSize := (length_writeAt linkedInside).trans taggedLength
  have pageInside : overflowHeaderSize + data.length ≤ linked.length := by omega
  have pageLength : page.length = pageSize := (length_writeAt pageInside).trans linkedLength
  refine ⟨page, ?_, pageLength, fun small => ?_⟩
  · simp only [encodeOverflow]
    rw [if_neg (by omega)]
  · have kind : page[offKind]? = some kindOverflow := by
      apply getElem?_of_slice
      rw [slice_writeAt_disjoint pageInside (.inl (by simp [offKind, header])),
        slice_writeAt_disjoint linkedInside (.inl (by simp [offKind, offOverflowNext]))]
      exact slice_writeAt_same taggedInside
    have link : slice page offOverflowNext 8 = leBytes 8 next := by
      rw [slice_writeAt_disjoint pageInside (.inl (by simp [offOverflowNext, header]))]
      have same := slice_writeAt_same linkedInside
      rwa [length_leBytes] at same
    have payload : page.drop overflowHeaderSize =
        data ++ List.replicate (pageSize - overflowHeaderSize - data.length) 0 := by
      rw [drop_writeAt pageInside, drop_writeAt_after linkedInside (by
        simp [offOverflowNext, header]), drop_writeAt_after taggedInside (by
        simp [offKind, header]; omega), drop_replicate, Nat.sub_sub]
    have room : offOverflowNext + 8 ≤ page.length := by
      simp [pageLength, offOverflowNext]
      omega
    have got := getU64_of_slice room link small
    simp [decodeOverflow, overflowNext, pageLength, kind, got, payload, bind, Except.bind, pure,
      Except.pure]

/-! ## The writer -/

/-- Cells at the places their slots name: slots from `slot` on, cells from `stop`
backwards. -/
def Laid (buffer : Bytes) : Nat -> Nat -> List Bytes -> Prop
  | _, _, [] => True
  | slot, stop, fields :: rest =>
    slice buffer slot 2 = leBytes 2 (stop - fields.length) ∧
      slice buffer (stop - fields.length) fields.length = fields ∧
      Laid buffer (slot + 2) (stop - fields.length) rest

/-- Bytes the cells take together. -/
def areaSize (cells : List Bytes) : Nat := (cells.map List.length).sum

@[simp] theorem areaSize_cons (fields : Bytes) (rest : List Bytes) :
    areaSize (fields :: rest) = fields.length + areaSize rest := rfl

theorem writeU16_of_lt (small : value < 2 ^ 16) :
    writeU16 buffer offset value = .ok (writeAt buffer offset (leBytes 2 value)) :=
  if_pos small

/-- One cell written and its slot recorded. -/
def PageWriter.place (page : PageWriter) (fields : Bytes) : PageWriter where
  buf := writeAt (writeAt page.buf page.slotCursor
    (leBytes 2 (page.cellCursor - fields.length))) (page.cellCursor - fields.length) fields
  cellCursor := page.cellCursor - fields.length
  slotCursor := page.slotCursor + slotSize

theorem PageWriter.cell_eq {page : PageWriter} {fields : Bytes} (small : page.cellCursor < 2 ^ 16) :
    page.cell fields.length fields = .ok (page.place fields) := by
  have less : page.cellCursor - fields.length < 2 ^ 16 := by omega
  simp [PageWriter.cell, writeU16_of_lt less, PageWriter.place, bind, Except.bind, pure,
    Except.pure]

theorem foldlM_place {fields : α -> Except Error Bytes} {size : α -> Nat} {cell : α -> Bytes}
    (items : List α) (page : PageWriter) (small : page.cellCursor < 2 ^ 16)
    (each : ∀ item ∈ items, fields item = .ok (cell item) ∧ (cell item).length = size item) :
    items.foldlM (fun page item => do
      let written <- fields item
      page.cell (size item) written) page =
      (.ok ((items.map cell).foldl PageWriter.place page) : Except Error PageWriter) := by
  induction items generalizing page with
  | nil => rfl
  | cons item items ih =>
    obtain ⟨written, length⟩ := each item (by simp)
    have placed : page.cell (size item) (cell item) = .ok (page.place (cell item)) := by
      rw [<- length]
      exact PageWriter.cell_eq small
    have rest := ih (page.place (cell item)) (by
      simp only [PageWriter.place]
      omega) fun other member => each other (mem_cons_of_mem _ member)
    simp only [foldlM_cons, map_cons, foldl_cons, written, bind, Except.bind, placed]
    exact rest

/-- What placing cells does to a page: they are laid out, and the bytes outside the
slots and the cell area stay. -/
theorem place_spec (cells : List Bytes) (page : PageWriter)
    (room : page.slotCursor + 2 * cells.length + areaSize cells ≤ page.cellCursor)
    (inside : page.cellCursor ≤ page.buf.length) :
    (cells.foldl PageWriter.place page).buf.length = page.buf.length ∧
      (cells.foldl PageWriter.place page).cellCursor = page.cellCursor - areaSize cells ∧
      Laid (cells.foldl PageWriter.place page).buf page.slotCursor page.cellCursor cells ∧
      ∀ start length, start + length ≤ page.slotCursor ∨ page.cellCursor ≤ start ->
        slice (cells.foldl PageWriter.place page).buf start length =
          slice page.buf start length := by
  induction cells generalizing page with
  | nil => simp [Laid, areaSize]
  | cons fields rest ih =>
    simp only [areaSize_cons, length_cons] at room
    let slotted := writeAt page.buf page.slotCursor (leBytes 2 (page.cellCursor - fields.length))
    have slotInside : page.slotCursor +
        (leBytes 2 (page.cellCursor - fields.length)).length ≤ page.buf.length := by
      simp
      omega
    have slottedLength : slotted.length = page.buf.length := length_writeAt slotInside
    have cellInside : page.cellCursor - fields.length + fields.length ≤ slotted.length := by
      omega
    have placedLength : (page.place fields).buf.length = page.buf.length :=
      (length_writeAt cellInside).trans slottedLength
    obtain ⟨length, cursor, laid, kept⟩ := ih (page.place fields)
      (by simp only [PageWriter.place, slotSize]; omega)
      (by rw [placedLength]; simp only [PageWriter.place]; omega)
    refine ⟨length.trans placedLength, ?_, ⟨?_, ?_, laid⟩, ?_⟩
    · rw [foldl_cons, cursor]
      simp only [PageWriter.place, areaSize_cons]
      omega
    · -- The slot is below every slot written later and clear of the cells.
      rw [foldl_cons, kept _ _ (.inl (by simp [PageWriter.place, slotSize]))]
      have apart : page.slotCursor + 2 ≤ page.cellCursor - fields.length := by omega
      simp only [PageWriter.place]
      rw [slice_writeAt_disjoint cellInside (.inl apart)]
      have same := slice_writeAt_same slotInside
      rwa [length_leBytes] at same
    · rw [foldl_cons, kept _ _ (.inr (by simp [PageWriter.place]))]
      exact slice_writeAt_same cellInside
    · intro start count outside
      rw [foldl_cons, kept start count (by simp [PageWriter.place, slotSize]; omega)]
      simp only [PageWriter.place]
      rw [slice_writeAt_disjoint cellInside (by omega),
        slice_writeAt_disjoint slotInside (by simp; omega)]

theorem Laid.header {changed : Bytes} {stop edge : Nat} (laid : Laid buffer slot stop cells)
    (above : edge ≤ slot) (room : slot + 2 * cells.length + areaSize cells ≤ stop)
    (kept : ∀ start length, edge ≤ start → slice changed start length = slice buffer start length) :
    Laid changed slot stop cells := by
  induction cells generalizing slot stop with
  | nil => trivial
  | cons fields rest ih =>
    obtain ⟨slotHere, cellHere, others⟩ := laid
    simp only [areaSize_cons, length_cons] at room
    refine ⟨(kept _ _ above).trans slotHere, (kept _ _ (by omega)).trans cellHere, ?_⟩
    exact ih others (by omega) (by omega)

/-- A finished page: its header fields and its cells. -/
structure Finished (bytes : Bytes) (pageSize : Nat) (kind : UInt8) (leftmost : Nat)
    (cells : List Bytes) : Prop where
  length : bytes.length = pageSize
  kind : bytes[offKind]? = some kind
  count : slice bytes offCellCount 2 = leBytes 2 cells.length
  freeStart : slice bytes offFreeStart 2 = leBytes 2 (pageSize - areaSize cells)
  leftmost : slice bytes offLeftmost 8 = leBytes 8 leftmost
  laid : Laid bytes headerSize pageSize cells

theorem encode_finished (fields : α -> Except Error Bytes) (size : α -> Nat) (cell : α -> Bytes)
    (kind : UInt8) (leftmost : Nat)
    (each : ∀ item ∈ items, fields item = .ok (cell item) ∧ (cell item).length = size item)
    (fits : headerSize + slotSize * items.length + (items.map size).sum ≤ pageSize)
    (small : pageSize < 2 ^ 16) :
    ∃ bytes, (do
        let page <- PageWriter.new pageSize kind leftmost items.length
          (headerSize + slotSize * items.length + (items.map size).sum)
        let filled <- items.foldlM (fun page item => do
          let written <- fields item
          page.cell (size item) written) page
        filled.finish : Except Error Bytes) = .ok bytes ∧
      Finished bytes pageSize kind leftmost (items.map cell) := by
  have area : areaSize (items.map cell) = (items.map size).sum := by
    rw [areaSize, map_map]
    congr 1
    exact map_congr_left fun item member => (each item member).2
  have header : headerSize = 16 := rfl
  have slots : slotSize = 2 := rfl
  rw [header, slots] at fits
  let zeroed : Bytes := List.replicate pageSize 0
  let tagged := writeAt zeroed offKind [kind]
  let counted := writeAt tagged offCellCount (leBytes 2 items.length)
  let linked := writeAt counted offLeftmost (leBytes 8 leftmost)
  have zeroedLength : zeroed.length = pageSize := by simp [zeroed]
  have taggedInside : offKind + [kind].length ≤ zeroed.length := by
    simp [zeroedLength, offKind]
    omega
  have taggedLength : tagged.length = pageSize := (length_writeAt taggedInside).trans zeroedLength
  have countedInside : offCellCount + (leBytes 2 items.length).length ≤ tagged.length := by
    simp [taggedLength, offCellCount]
    omega
  have countedLength : counted.length = pageSize :=
    (length_writeAt countedInside).trans taggedLength
  have linkedInside : offLeftmost + (leBytes 8 leftmost).length ≤ counted.length := by
    simp [countedLength, offLeftmost]
    omega
  have linkedLength : linked.length = pageSize := (length_writeAt linkedInside).trans countedLength
  let start : PageWriter := { buf := linked, cellCursor := pageSize, slotCursor := headerSize }
  have begun : PageWriter.new pageSize kind leftmost items.length
      (headerSize + slotSize * items.length + (items.map size).sum) = .ok start := by
    have few : items.length < 2 ^ 16 := by omega
    have total : ¬ headerSize + slotSize * items.length + (items.map size).sum > pageSize := by
      rw [header, slots]
      omega
    simp [PageWriter.new, total, writeU16_of_lt few, start, linked, counted, tagged, zeroed, bind,
      Except.bind, pure, Except.pure]
  obtain ⟨length, cursor, laid, kept⟩ := place_spec (items.map cell) start
    (by simp [start, header, area]; omega) (by simp [start, linkedLength])
  let filled := (items.map cell).foldl PageWriter.place start
  have filledLength : filled.buf.length = pageSize := length.trans linkedLength
  have freeInside : offFreeStart + (leBytes 2 filled.cellCursor).length ≤ filled.buf.length := by
    simp [filledLength, offFreeStart]
    omega
  have freeCursor : filled.cellCursor = pageSize - areaSize (items.map cell) := cursor
  have finished : filled.finish =
      .ok (writeAt filled.buf offFreeStart (leBytes 2 filled.cellCursor)) := by
    have less : filled.cellCursor < 2 ^ 16 := by omega
    exact writeU16_of_lt less
  refine ⟨writeAt filled.buf offFreeStart (leBytes 2 filled.cellCursor), ?_, ?_⟩
  · rw [begun]
    change (items.foldlM _ start >>= fun page : PageWriter => page.finish) = _
    rw [foldlM_place items start small each]
    exact finished
  -- A header field other than the free start, as the first writes left it.
  have field : ∀ offset count, offset + count ≤ offFreeStart ∨ offFreeStart + 2 ≤ offset ->
      offset + count ≤ headerSize ->
      slice (writeAt filled.buf offFreeStart (leBytes 2 filled.cellCursor)) offset count =
        slice linked offset count := by
    intro offset count apart below
    rw [slice_writeAt_disjoint freeInside (by rwa [length_leBytes])]
    exact kept offset count (.inl below)
  exact {
    length := (length_writeAt freeInside).trans filledLength
    kind := by
      apply getElem?_of_slice
      rw [field offKind 1 (by decide) (by decide),
        slice_writeAt_disjoint linkedInside (.inl (by decide)),
        slice_writeAt_disjoint countedInside (.inl (by decide))]
      exact slice_writeAt_same taggedInside
    count := by
      rw [field offCellCount 2 (by decide) (by decide),
        slice_writeAt_disjoint linkedInside (.inl (by decide)), length_map]
      have same := slice_writeAt_same countedInside
      rwa [length_leBytes] at same
    freeStart := by
      rw [<- freeCursor]
      have same := slice_writeAt_same freeInside
      rwa [length_leBytes] at same
    leftmost := by
      rw [field offLeftmost 8 (by decide) (by decide)]
      have same := slice_writeAt_same linkedInside
      rwa [length_leBytes] at same
    laid := by
      refine laid.header (show 16 ≤ headerSize from le_rfl)
        (by simp [start, header, area]; omega) ?_
      intro offset count above
      exact slice_writeAt_disjoint freeInside (.inr (by simp [offFreeStart]; omega)) }

/-! ## The reader -/

/-- The slot values of cells packed down from `stop`. -/
def cursors : Nat -> List Bytes -> List Nat
  | _, [] => []
  | stop, fields :: rest => (stop - fields.length) :: cursors (stop - fields.length) rest

theorem Laid.slots {base stop : Nat}
    (laid : Laid buffer (headerSize + slotSize * base) stop cells) (small : stop < 2 ^ 16)
    (inside : headerSize + slotSize * (base + cells.length) ≤ buffer.length) :
    (List.range' base cells.length).mapM (fun i => getU16 buffer (headerSize + slotSize * i)) =
      (.ok (cursors stop cells) : Except Error (List Nat)) := by
  induction cells generalizing base stop with
  | nil => rfl
  | cons fields rest ih =>
    obtain ⟨slot, -, others⟩ := laid
    simp only [length_cons, headerSize, slotSize] at inside ih slot others ⊢
    have here : getU16 buffer (16 + 2 * base) = .ok (stop - fields.length) :=
      getU16_of_slice (by omega) slot (by omega)
    rw [show 16 + 2 * base + 2 = 16 + 2 * (base + 1) by omega] at others
    have tail := ih others (by omega) (by omega)
    rw [range'_succ, mapM_cons, here, tail]
    rfl

theorem Laid.parse {γ β : Type} (parse : Nat -> Except Error β)
    (good : γ -> β -> Prop) (cell : γ -> Bytes) (items : List γ) {stop : Nat}
    (each : ∀ item ∈ items, ∀ start, slice buffer start (cell item).length = cell item ->
      start + (cell item).length ≤ buffer.length → ∃ parsed, parse start = .ok parsed ∧ good item parsed)
    (laid : Laid buffer slot stop (items.map cell)) (inside : stop ≤ buffer.length)
    (room : areaSize (items.map cell) ≤ stop) :
    ∃ parsed, (cursors stop (items.map cell)).mapM parse = .ok parsed ∧
      List.Forall₂ good items parsed := by
  induction items generalizing slot stop with
  | nil => exact ⟨[], rfl, .nil⟩
  | cons item items ih =>
    obtain ⟨-, here, others⟩ := laid
    simp only [map_cons, areaSize_cons] at room
    obtain ⟨first, parsedFirst, goodFirst⟩ := each item (by simp) _ here (by omega)
    obtain ⟨rest, parsedRest, goodRest⟩ := ih
      (fun other member => each other (mem_cons_of_mem _ member)) others (by omega) (by omega)
    refine ⟨first :: rest, ?_, .cons goodFirst goodRest⟩
    rw [map_cons, cursors, mapM_cons, parsedFirst, parsedRest]
    rfl

theorem Finished.header {kind : UInt8} {leftmost : Nat}
    (finished : Finished bytes pageSize kind leftmost cells)
    (fits : headerSize + slotSize * cells.length + areaSize cells ≤ pageSize)
    (small : pageSize < 2 ^ 16) (link : leftmost < 2 ^ 64) :
    decode pageSize bytes =
      if kind = kindLeaf then do
        let entries <- (cursors pageSize cells).mapM (decodeLeafCell bytes)
        return .leaf bytes entries
      else if kind = kindInternal then do
        let inner <- (cursors pageSize cells).mapM (decodeInternalCell bytes pageSize)
        return .internal bytes leftmost inner
      else throw (.corrupt s!"unknown node kind {kind}") := by
  simp only [headerSize, slotSize] at fits
  have length := finished.length
  have tag : bytes.getD offKind 0 = kind := by
    rw [getD_eq_getElem?_getD, finished.kind, Option.getD_some]
  have room : ∀ offset count, offset + count ≤ 16 -> offset + count ≤ bytes.length := by
    intro offset count bound
    omega
  have count := getU16_of_slice (room offCellCount 2 (by decide)) finished.count (by omega)
  have free := getU16_of_slice (room offFreeStart 2 (by decide)) finished.freeStart (by omega)
  have first := getU64_of_slice (room offLeftmost 8 (by decide)) finished.leftmost link
  have slots : (List.range cells.length).mapM
      (fun i => getU16 bytes (headerSize + slotSize * i)) = .ok (cursors pageSize cells) := by
    rw [range_eq_range']
    exact Laid.slots (by simpa using finished.laid) small
      (by simp only [headerSize, slotSize]; omega)
  have before : ¬ pageSize - areaSize cells > pageSize := by omega
  have clear : ¬ headerSize + slotSize * cells.length > pageSize - areaSize cells := by
    simp only [headerSize, slotSize]
    omega
  unfold decode
  simp only [tag, count, free, first, length, ne_eq, not_true_eq_false, if_false, bind,
    Except.bind, pure, Except.pure, before, clear, slots]

/-! ## Cells -/

/-- The bytes of a leaf cell, from its view. -/
def leafCellBytes (cell : Bytes × ValueView) : Bytes :=
  leBytes 2 cell.1.length ++ cell.1 ++ match cell.2 with
    | .inline bytes => [valueInline] ++ leBytes 4 bytes.length ++ bytes
    | .overflow first length => [valueOverflow] ++ leBytes 8 first ++ leBytes 8 length

/-- The bytes of an internal cell, from its view. -/
def internalCellBytes (cell : Bytes × Nat) : Bytes :=
  leBytes 2 cell.1.length ++ cell.1 ++ leBytes 8 cell.2

theorem length_leafCellBytes (cell : Bytes × ValueView) :
    (leafCellBytes cell).length = cell.2.cellSize cell.1 := by
  obtain ⟨key, value⟩ := cell
  cases value <;> simp [leafCellBytes, ValueView.cellSize] <;> omega

theorem length_internalCellBytes (cell : Bytes × Nat) :
    (internalCellBytes cell).length = internalCellSize cell.1 := by
  simp [internalCellBytes, internalCellSize, Nat.add_assoc]

theorem leafCellFields_eq {source : Bytes} {entry : Entry} (ranged : entry.value.Ranged source)
    (small : (entry.value.view source).cellSize (keyBytes source entry.key) < 2 ^ 16) :
    leafCellFields source entry = .ok (leafCellBytes (entry.view source)) := by
  obtain ⟨key, value⟩ := entry
  cases value with
  | inline range =>
    simp only [ValueRef.view, ValueView.cellSize] at small
    have short : (keyBytes source key).length < 2 ^ 16 := by omega
    have fits : (range.of source).length < 2 ^ 32 := by omega
    simp only [leafCellFields, cellU16, if_pos short, cellU32, if_pos fits, bind, Except.bind]
    simp [leafCellBytes, Entry.view, ValueRef.view, pure, Except.pure]
  | owned value =>
    simp only [ValueRef.view, ValueView.cellSize] at small
    have short : (keyBytes source key).length < 2 ^ 16 := by omega
    have fits : value.length < 2 ^ 32 := by omega
    simp only [leafCellFields, cellU16, if_pos short, cellU32, if_pos fits, bind, Except.bind]
    simp [leafCellBytes, Entry.view, ValueRef.view, pure, Except.pure]
  | overflow first length =>
    simp only [ValueRef.view, ValueView.cellSize] at small
    have short : (keyBytes source key).length < 2 ^ 16 := by omega
    simp only [leafCellFields, cellU16, if_pos short, bind, Except.bind]
    simp [leafCellBytes, Entry.view, ValueRef.view, pure, Except.pure]

theorem internalCellFields_eq {source : Bytes} {cell : Separator}
    (small : internalCellSize (keyBytes source cell.key) < 2 ^ 16) :
    internalCellFields source cell = .ok (internalCellBytes (cell.view source)) := by
  simp only [internalCellSize] at small
  have short : (keyBytes source cell.key).length < 2 ^ 16 := by omega
  simp only [internalCellFields, cellU16, if_pos short, bind, Except.bind]
  simp [internalCellBytes, Separator.view, pure, Except.pure]

/-- The page a leaf value names is below `bound`; its length is a `u64`. -/
def ValueView.Below (bound : Nat) : ValueView -> Prop
  | .inline _ => True
  | .overflow first length => first < bound ∧ length < 2 ^ 64

/-- The pages a node names are below `bound`. -/
def NodeView.Below (bound : Nat) : NodeView -> Prop
  | .leaf cells => ∀ cell ∈ cells, cell.2.Below bound
  | .internal leftmost cells => leftmost < bound ∧ ∀ cell ∈ cells, cell.2 < bound

theorem NodeView.Below.mono {bound larger : Nat} {view : NodeView} (below : view.Below bound)
    (le : bound ≤ larger) : view.Below larger := by
  cases view with
  | leaf cells =>
    intro cell member
    have here := below cell member
    revert here
    cases cell.2 with
    | inline _ => exact id
    | overflow first length => exact fun here => ⟨here.1.trans_le le, here.2⟩
  | internal leftmost cells =>
    exact ⟨below.1.trans_le le, fun cell member => (below.2 cell member).trans_le le⟩

theorem key_of_cell {key tail : Bytes}
    (here : slice buffer slot (leBytes 2 key.length ++ key ++ tail).length =
      leBytes 2 key.length ++ key ++ tail) :
    slice buffer slot 2 = leBytes 2 key.length ∧ slice buffer (slot + 2) key.length = key ∧
      ∀ start count, start + count ≤ tail.length ->
        slice buffer (slot + 2 + key.length + start) count = slice tail start count := by
  refine ⟨?_, ?_, ?_⟩
  · rw [<- Nat.add_zero slot, slice_of_slice here (by simp), append_assoc,
      slice_append_left (by simp), slice, drop_zero]
    exact take_of_length_le (by simp)
  · rw [slice_of_slice here (by simp)]
    have middle := slice_middle (leBytes 2 key.length) key tail
    rwa [length_leBytes] at middle
  · intro start count inside
    rw [Nat.add_assoc, Nat.add_assoc, slice_of_slice here (by simp; omega)]
    have front : 2 + (key.length + start) = (leBytes 2 key.length ++ key).length + start := by
      simp
      omega
    rw [front, slice_append_right]

theorem decodeLeafCell_of_slice {cell : Bytes × ValueView}
    (here : slice buffer slot (leafCellBytes cell).length = leafCellBytes cell)
    (inside : slot + (leafCellBytes cell).length ≤ buffer.length)
    (size : cell.2.cellSize cell.1 < 2 ^ 16) (small : cell.2.Below (2 ^ 64)) :
    ∃ entry, decodeLeafCell buffer slot = .ok entry ∧ entry.view buffer = cell ∧
      entry.value.Ranged buffer := by
  obtain ⟨key, value⟩ := cell
  rw [length_leafCellBytes] at inside
  cases value with
  | inline bytes =>
    simp only [ValueView.cellSize] at size inside
    obtain ⟨head, body, tail⟩ := key_of_cell here
    have tag : buffer[slot + 2 + key.length]? = some valueInline :=
      getElem?_of_slice ((tail 0 1 (by simp)).trans (by simp [slice]))
    have length : slice buffer (slot + 2 + key.length + 1) 4 = leBytes 4 bytes.length :=
      (tail 1 4 (by simp)).trans (by simp [slice])
    have content : slice buffer (slot + 2 + key.length + 5) bytes.length = bytes :=
      (tail 5 bytes.length (by simp; omega)).trans (by simp [slice])
    have keyLen : ofLe (leBytes 2 key.length) = key.length := ofLe_leBytes (by omega)
    have valueLen : ofLe (leBytes 4 bytes.length) = bytes.length := ofLe_leBytes (by omega)
    refine ⟨{ key := .borrowed ⟨slot + 2, slot + 2 + key.length⟩,
              value := .inline ⟨slot + 2 + key.length + 5,
                slot + 2 + key.length + 5 + bytes.length⟩ }, ?_, ?_, ?_⟩
    · have past : ¬ slot + 2 + key.length + 5 + bytes.length > buffer.length := by omega
      simp only [decodeLeafCell, parseLeafCell,
        slice?_eq_some (show slot + 2 ≤ buffer.length by omega), head, keyLen, tag, if_true,
        slice?_eq_some (show slot + 2 + key.length + 1 + 4 ≤ buffer.length by omega), length,
        valueLen, if_neg past, bind, Except.bind]
      rfl
    · simp [Entry.view, keyBytes, ValueRef.view, ByteRange.of, ByteRange.len, body, content]
    · exact ⟨by simp, by simp; omega⟩
  | overflow first count =>
    simp only [ValueView.cellSize] at size inside
    obtain ⟨head, body, tail⟩ := key_of_cell here
    have tag : buffer[slot + 2 + key.length]? = some valueOverflow :=
      getElem?_of_slice ((tail 0 1 (by simp)).trans (by simp [slice]))
    have pointer : slice buffer (slot + 2 + key.length + 1) 16 =
        leBytes 8 first ++ leBytes 8 count :=
      (tail 1 16 (by simp)).trans (by simp [slice])
    have keyLen : ofLe (leBytes 2 key.length) = key.length := ofLe_leBytes (by omega)
    have firstId : ofLe (leBytes 8 first) = first := ofLe_leBytes (by simpa using small.1)
    have total : ofLe (leBytes 8 count) = count := ofLe_leBytes (by simpa using small.2)
    have differs : valueOverflow ≠ valueInline := by decide
    have left : (leBytes 8 first ++ leBytes 8 count).take 8 = leBytes 8 first :=
      take_left' (length_leBytes 8 first)
    have right : (leBytes 8 first ++ leBytes 8 count).drop 8 = leBytes 8 count :=
      drop_left' (length_leBytes 8 first)
    refine ⟨{ key := .borrowed ⟨slot + 2, slot + 2 + key.length⟩,
              value := .overflow first count }, ?_, ?_, trivial⟩
    · simp only [decodeLeafCell, parseLeafCell,
        slice?_eq_some (show slot + 2 ≤ buffer.length by omega), head, keyLen, tag,
        if_neg differs, if_true,
        slice?_eq_some (show slot + 2 + key.length + 1 + 16 ≤ buffer.length by omega), pointer,
        left, right, firstId, total, bind, Except.bind]
      rfl
    · simp [Entry.view, keyBytes, ValueRef.view, ByteRange.of, ByteRange.len, body]

theorem decodeInternalCell_of_slice {cell : Bytes × Nat} (whole : buffer.length = pageSize)
    (here : slice buffer slot (internalCellBytes cell).length = internalCellBytes cell)
    (inside : slot + (internalCellBytes cell).length ≤ buffer.length)
    (size : internalCellSize cell.1 < 2 ^ 16) (small : cell.2 < 2 ^ 64) :
    ∃ parsed, decodeInternalCell buffer pageSize slot = .ok parsed ∧ parsed.view buffer = cell := by
  obtain ⟨key, child⟩ := cell
  rw [length_internalCellBytes] at inside
  simp only [internalCellSize] at size inside
  obtain ⟨head, body, tail⟩ := key_of_cell here
  have link : slice buffer (slot + 2 + key.length) 8 = leBytes 8 child :=
    (tail 0 8 (by simp)).trans (by simp [slice])
  have keyLen := getU16_of_slice (show slot + 2 ≤ buffer.length by omega) head
    (show key.length < 2 ^ 16 by omega)
  have childId := getU64_of_slice (show slot + 2 + key.length + 8 ≤ buffer.length by omega) link
    small
  have first : ¬ slot + 2 > pageSize := by omega
  have second : ¬ slot + 2 + key.length + 8 > pageSize := by omega
  refine ⟨{ key := .borrowed ⟨slot + 2, slot + 2 + key.length⟩, child }, ?_, ?_⟩
  · simp only [decodeInternalCell, if_neg first, keyLen, if_neg second, childId, bind,
      Except.bind, pure, Except.pure]
  · simp [Separator.view, keyBytes, ByteRange.of, ByteRange.len, body]

/-! ## Nodes -/

/-- A node whose ranges are sound and whose encoding fits a page. -/
def Node.Fits (pageSize : Nat) : Node -> Prop
  | .leaf bytes entries => (∀ entry ∈ entries, entry.value.Ranged bytes) ∧
      leafSize bytes entries ≤ pageSize
  | .internal bytes _ cells => internalSize bytes cells ≤ pageSize

theorem forall₂_map_eq {β : Type} {view : β -> α} {good : α -> β -> Prop} {parsed : List β}
    (related : List.Forall₂ good items parsed)
    (means : ∀ item found, good item found -> view found = item) : parsed.map view = items := by
  induction related with
  | nil => rfl
  | cons here _ ih => rw [map_cons, means _ _ here, ih]

theorem forall₂_mem {β : Type} {good : α -> β -> Prop} {parsed : List β}
    (related : List.Forall₂ good items parsed) {found : β} (member : found ∈ parsed) :
    ∃ item, good item found := by
  induction related with
  | nil => simp at member
  | @cons item first _ _ here _ ih =>
    rcases mem_cons.mp member with rfl | inRest
    · exact ⟨item, here⟩
    · exact ih inRest

theorem decode_encodeNode {node : Node} (fits : node.Fits pageSize) (page : pageSize < 2 ^ 16) :
    ∃ bytes, encodeNode pageSize node = .ok bytes ∧ bytes.length = pageSize ∧
      (node.view.Below (2 ^ 64) -> ∃ decoded, decode pageSize bytes = .ok decoded ∧ decoded.Ranged ∧
        decoded.view = node.view) := by
  cases node with
  | leaf source entries =>
    obtain ⟨ranged, size⟩ := fits
    rw [leafSize] at size
    have length : ∀ entry ∈ entries, (leafCellBytes (entry.view source)).length =
        leafCellSize (keyBytes source entry.key) entry.value := by
      intro entry member
      rw [length_leafCellBytes, leafCellSize_eq (ranged entry member)]
      rfl
    have sizes : ∀ entry ∈ entries, (entry.value.view source).cellSize
        (keyBytes source entry.key) < 2 ^ 16 := by
      intro entry member
      have bound := single_le_sum (fun _ _ => Nat.zero_le _) _ (mem_map_of_mem
        (f := fun entry => leafCellSize (keyBytes source entry.key) entry.value) member)
      rw [<- leafCellSize_eq (ranged entry member)]
      omega
    obtain ⟨bytes, encoded, finished⟩ := encode_finished (leafCellFields source)
      (fun entry : Entry => leafCellSize (keyBytes source entry.key) entry.value)
      (fun entry => leafCellBytes (entry.view source)) kindLeaf 0
      (fun entry member => ⟨leafCellFields_eq (ranged entry member) (sizes entry member),
        length entry member⟩) size page
    refine ⟨bytes, encoded, finished.length, fun small => ?_⟩
    have area : areaSize (entries.map fun entry => leafCellBytes (entry.view source)) =
        (entries.map fun entry => leafCellSize (keyBytes source entry.key) entry.value).sum := by
      rw [areaSize, map_map]
      exact congrArg List.sum (map_congr_left length)
    have cells : entries.map (fun entry => leafCellBytes (entry.view source)) =
        (entries.map (Entry.view source)).map leafCellBytes := by rw [map_map]; rfl
    have whole := finished.header (by rw [length_map, area]; exact size) page (by decide)
    obtain ⟨parsed, read, related⟩ := Laid.parse (decodeLeafCell bytes)
      (fun cell entry => entry.view bytes = cell ∧ entry.value.Ranged bytes) leafCellBytes
      (entries.map (Entry.view source)) (by
        intro cell member start here inside
        obtain ⟨entry, inEntries, rfl⟩ := mem_map.mp member
        exact decodeLeafCell_of_slice here inside (sizes entry inEntries)
          (small _ (mem_map_of_mem inEntries)))
      (cells ▸ finished.laid) finished.length.ge (by
        rw [<- cells, area]
        omega)
    refine ⟨.leaf bytes parsed, ?_, ?_, ?_⟩
    · rw [whole, if_pos rfl, cells, read]
      rfl
    · intro entry member
      obtain ⟨cell, -, ranged⟩ := forall₂_mem related member
      exact ranged
    · exact congrArg NodeView.leaf (forall₂_map_eq related fun _ _ found => found.1)
  | internal source leftmost cells =>
    simp only [Node.Fits, internalSize] at fits
    have length : ∀ cell ∈ cells, (internalCellBytes (cell.view source)).length =
        internalCellSize (keyBytes source cell.key) := by
      intro cell _
      rw [length_internalCellBytes]
      rfl
    have sizes : ∀ cell ∈ cells, internalCellSize (keyBytes source cell.key) < 2 ^ 16 := by
      intro cell member
      have bound := single_le_sum (fun _ _ => Nat.zero_le _) _ (mem_map_of_mem
        (f := fun cell : Separator => internalCellSize (keyBytes source cell.key)) member)
      omega
    obtain ⟨bytes, encoded, finished⟩ := encode_finished (internalCellFields source)
      (fun cell : Separator => internalCellSize (keyBytes source cell.key))
      (fun cell => internalCellBytes (cell.view source)) kindInternal leftmost
      (fun cell member => ⟨internalCellFields_eq (sizes cell member), length cell member⟩)
      fits page
    refine ⟨bytes, encoded, finished.length, fun small => ?_⟩
    have area : areaSize (cells.map fun cell => internalCellBytes (cell.view source)) =
        (cells.map fun cell => internalCellSize (keyBytes source cell.key)).sum := by
      rw [areaSize, map_map]
      exact congrArg List.sum (map_congr_left length)
    have views : cells.map (fun cell => internalCellBytes (cell.view source)) =
        (cells.map (Separator.view source)).map internalCellBytes := by rw [map_map]; rfl
    have whole := finished.header (by rw [length_map, area]; exact fits) page small.1
    obtain ⟨parsed, read, related⟩ := Laid.parse (decodeInternalCell bytes pageSize)
      (fun cell separator => separator.view bytes = cell) internalCellBytes
      (cells.map (Separator.view source)) (by
        intro cell member start here inside
        obtain ⟨separator, inCells, rfl⟩ := mem_map.mp member
        exact decodeInternalCell_of_slice finished.length here inside (sizes separator inCells)
          (small.2 _ (mem_map_of_mem inCells)))
      (views ▸ finished.laid) finished.length.ge (by
        rw [<- views, area]
        omega)
    refine ⟨.internal bytes leftmost parsed, ?_, trivial, ?_⟩
    · rw [whole, if_neg (by decide), if_pos rfl, views, read]
      rfl
    · exact congrArg (NodeView.internal leftmost) (forall₂_map_eq related fun _ _ found => found)

end InlaySql.Btree
