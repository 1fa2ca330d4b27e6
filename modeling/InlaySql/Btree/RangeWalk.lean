import InlaySql.Btree.Ranges

/-!
# What the range walks visit

A leaf read in place holds the cells its node holds. From that each walk over a
well-formed subtree is settled by the wanted entries of the subtree alone: the
left-to-right ones take them up to their limit, the one from the right edge takes the
last.
-/

namespace InlaySql.Btree

open List Option Lib Wal

/-! ## Leaves read in place hold what their nodes hold -/

section RawLeaf

variable {pageSize : Nat} {bytes source : Bytes} {entries : List Entry}

theorem decode_eq_ok {node : Node} (decoded : decode pageSize bytes = .ok node) :
    ∃ count slots, checkLeafHeader bytes pageSize = .ok count ∧
      (List.range count).mapM (fun i => getU16 bytes (headerSize + slotSize * i)) = .ok slots ∧
      ((bytes.getD offKind 0 = kindLeaf ∧ ∃ entries, slots.mapM (decodeLeafCell bytes) =
          .ok entries ∧ node = .leaf bytes entries) ∨
        (bytes.getD offKind 0 = kindInternal ∧ ∃ leftmost cells, node =
          .internal bytes leftmost cells)) := by
  simp only [decode] at decoded
  split at decoded
  · cases decoded
  rename_i sized
  obtain ⟨count, isCount, decoded⟩ := bind_eq_ok decoded
  obtain ⟨freeStart, isFree, decoded⟩ := bind_eq_ok decoded
  obtain ⟨leftmost, -, decoded⟩ := bind_eq_ok decoded
  split at decoded
  · cases decoded
  rename_i past
  split at decoded
  · cases decoded
  rename_i overlaps
  obtain ⟨slots, isSlots, decoded⟩ := bind_eq_ok decoded
  refine ⟨count, slots, ?_, isSlots, ?_⟩
  · simp only [checkLeafHeader]
    rw [if_neg sized, isCount, isFree]
    simp only [bind, Except.bind, if_neg past, if_neg overlaps]
    rfl
  · split at decoded
    · rename_i isLeaf
      obtain ⟨entries, isEntries, result⟩ := bind_eq_ok decoded
      cases result
      exact .inl ⟨isLeaf, entries, isEntries, rfl⟩
    · split at decoded
      · rename_i isInternal
        obtain ⟨cells, -, result⟩ := bind_eq_ok decoded
        cases result
        exact .inr ⟨isInternal, leftmost, cells, rfl⟩
      · cases decoded

theorem mapM_forall₂ {α β : Type} {read : α -> Except Error β} {items : List α} {found : List β}
    (done : items.mapM read = .ok found) :
    List.Forall₂ (fun item value => read item = .ok value) items found := by
  induction items generalizing found with
  | nil =>
    cases done
    exact .nil
  | cons item items ih =>
    rw [mapM_cons] at done
    obtain ⟨value, isValue, rest⟩ := bind_eq_ok done
    obtain ⟨values, isValues, result⟩ := bind_eq_ok rest
    cases result
    exact .cons isValue (ih isValues)

theorem leaf_cells (decoded : decode pageSize bytes = .ok (.leaf source entries)) :
    source = bytes ∧ bytes.getD offKind 0 = kindLeaf ∧
      checkLeafHeader bytes pageSize = .ok entries.length ∧
      List.Forall₂ (fun i entry => ∃ slot, getU16 bytes (headerSize + slotSize * i) = .ok slot ∧
        decodeLeafCell bytes slot = .ok entry) (List.range entries.length) entries := by
  obtain ⟨count, slots, header, isSlots, ⟨kind, found, isFound, same⟩ | ⟨-, leftmost, cells, same⟩⟩ :=
    decode_eq_ok decoded
  · obtain ⟨rfl, rfl⟩ : source = bytes ∧ entries = found := by simpa using same
    have slotted := mapM_forall₂ isSlots
    have parsed := mapM_forall₂ isFound
    have counted : count = entries.length := by
      have := slotted.length_eq
      have := parsed.length_eq
      simp only [length_range] at *
      omega
    rw [<- counted]
    refine ⟨rfl, kind, header, ?_⟩
    rw [forall₂_iff_get] at slotted parsed ⊢
    refine ⟨slotted.1.trans parsed.1, fun i inRange inEntries => ?_⟩
    have inSlots : i < slots.length := slotted.1 ▸ inRange
    exact ⟨slots.get ⟨i, inSlots⟩, slotted.2 i inRange inSlots, parsed.2 i inSlots inEntries⟩
  · cases same

theorem leafKeyAt_eq {offset slot : Nat} {entry : Entry} (isSlot : getU16 bytes offset = .ok slot)
    (isEntry : decodeLeafCell bytes slot = .ok entry) :
    leafKeyAt bytes offset = .ok (keyBytes bytes entry.key) := by
  obtain ⟨⟨range, value⟩, parsed, result⟩ := bind_eq_ok isEntry
  cases result
  unfold parseLeafCell at parsed
  cases isHead : slice? bytes slot 2 with
  | none =>
    rw [isHead] at parsed
    cases parsed
  | some head =>
    simp only [isHead] at parsed
    cases isTag : bytes[slot + 2 + ofLe head]? with
    | none =>
      rw [isTag] at parsed
      cases parsed
    | some tag =>
      have inside := (List.getElem?_eq_some_iff.mp isTag).1
      have isRange : range = ⟨slot + 2, slot + 2 + ofLe head⟩ := by
        simp only [isTag] at parsed
        split at parsed
        · split at parsed
          · cases parsed
          · split at parsed
            · cases parsed
            · cases parsed
              rfl
        · split at parsed
          · split at parsed
            · cases parsed
            · cases parsed
              rfl
          · cases parsed
      have key : slice? bytes (slot + 2) (ofLe head) =
          some (slice bytes (slot + 2) (ofLe head)) := by
        rw [slice?, if_pos (by omega)]
      simp only [leafKeyAt, isSlot, bind, Except.bind, isHead, key]
      rw [isRange]
      simp only [keyBytes, ByteRange.of, ByteRange.len, Nat.add_sub_cancel_left]
      rfl

theorem scanLeafCells_eq {Out : Type} (decoded : decode pageSize bytes = .ok (.leaf source entries))
    (visit : Bytes -> ValueRef -> Out -> Except Error Out) (out : Out) :
    scanLeafCells bytes pageSize visit out =
      entries.foldlM (fun out entry => visit (keyBytes bytes entry.key) entry.value out) out := by
  obtain ⟨-, -, header, cells⟩ := leaf_cells decoded
  rw [scanLeafCells, header]
  change (List.range entries.length).foldlM _ out = _
  generalize List.range entries.length = slots at cells
  clear decoded header
  induction cells generalizing out with
  | nil => rfl
  | @cons i entry slots entries cell _ ih =>
    obtain ⟨slot, isSlot, isEntry⟩ := cell
    obtain ⟨⟨range, value⟩, parsed, result⟩ := bind_eq_ok isEntry
    cases result
    rw [foldlM_cons, foldlM_cons]
    simp only [isSlot, parsed, bind, Except.bind, keyBytes]
    cases visit (range.of bytes) value out with
    | error error => rfl
    | ok next => exact ih next

theorem leafEdgeKeys_eq (decoded : decode pageSize bytes = .ok (.leaf source entries)) :
    leafEdgeKeys bytes pageSize = .ok (match entries.head?, entries.getLast? with
      | some first, some last => some (keyBytes bytes first.key, keyBytes bytes last.key)
      | _, _ => none) := by
  obtain ⟨-, -, header, cells⟩ := leaf_cells decoded
  rw [forall₂_iff_get] at cells
  have keyAt : ∀ i (inside : i < entries.length), leafKeyAt bytes (headerSize + slotSize * i) =
      .ok (keyBytes bytes (entries.get ⟨i, inside⟩).key) := by
    intro i inside
    obtain ⟨slot, isSlot, isEntry⟩ := cells.2 i (by simpa using inside) inside
    have at_ : (List.range entries.length).get ⟨i, by simpa using inside⟩ = i := by simp
    rw [at_] at isSlot
    exact leafKeyAt_eq isSlot isEntry
  rw [leafEdgeKeys, header]
  by_cases none : entries = []
  · subst none
    rfl
  · have some : entries.length ≠ 0 := by simpa using none
    have first := keyAt 0 (by omega)
    have last := keyAt (entries.length - 1) (by omega)
    rw [Nat.mul_zero, Nat.add_zero] at first
    simp only [bind, Except.bind, if_neg some, first, last]
    rw [head?_eq_getElem?, getLast?_eq_getElem?, getElem?_eq_getElem (by omega),
      getElem?_eq_getElem (by omega)]
    rfl

end RawLeaf

/-! ## What each walk makes of a leaf -/

namespace CowBTree

open WalkBounds

/-- The row id at the end of a key. -/
def rowIdOf (key : Bytes) : Nat := ofBe (key.drop (key.length - 8))

/-- What the row-value walk returns for an entry. -/
def rowOf (entry : Bytes × Bytes) : Nat × Bytes := (rowIdOf entry.1, entry.2)

/-- The bytes of a page are a leaf that holds `contents`, in key order. -/
def RawHolds (pageSize : Nat) (pages : Pages) (bytes : Bytes) (contents : List (Bytes × Bytes)) :
    Prop :=
  ∃ source entries below, decode pageSize bytes = .ok (.leaf source entries) ∧
    Held pageSize pages (entries.map (Entry.view bytes)) contents below ∧
    ((entries.map (Entry.view bytes)).map Prod.fst).Pairwise (· < ·)

section LeafReads

variable {pageSize : Nat} {pages : Pages} {bounds : WalkBounds} {bytes : Bytes}
  {entries : List Entry} {contents done : List (Bytes × Bytes)} {below : Finset Nat}

theorem admits_between {first last key : Bytes} (low : bounds.admits first = true)
    (high : bounds.admits last = true) (above : first ≤ key) (under : key ≤ last) :
    bounds.admits key = true := by
  rw [admits_iff] at low high ⊢
  refine ⟨low.1.trans above, fun stop isStop => under.trans_lt (high.2.1 stop isStop), ?_⟩
  exact fun after isAfter => (low.2.2 after isAfter).trans_le above

theorem admits_of_edges (sorted : ((entries.map (Entry.view bytes)).map Prod.fst).Pairwise (· < ·))
    {first last : Entry} (isFirst : entries.head? = some first)
    (isLast : entries.getLast? = some last)
    (low : bounds.admits (keyBytes bytes first.key) = true)
    (high : bounds.admits (keyBytes bytes last.key) = true) :
    ∀ entry ∈ entries, bounds.admits (keyBytes bytes entry.key) = true := by
  rw [List.map_map, pairwise_map] at sorted
  intro entry member
  refine admits_between low high ?_ ?_
  · obtain ⟨rest, rfl⟩ := head?_eq_some_iff.mp isFirst
    rcases mem_cons.mp member with rfl | later
    · exact le_rfl
    · exact ((pairwise_cons.mp sorted).1 entry later).le
  · obtain ⟨front, rfl⟩ := getLast?_eq_some_iff.mp isLast
    rcases mem_append.mp member with earlier | isEntry
    · exact ((pairwise_append.mp sorted).2.2 entry earlier last (by simp)).le
    · obtain rfl : entry = last := by simpa using isEntry
      exact le_rfl

theorem length_wanted (held : Held pageSize pages (entries.map (Entry.view bytes)) contents below) :
    (entries.filter fun entry => bounds.admits (keyBytes bytes entry.key)).length =
      (bounds.wanted contents).length := by
  have keys : contents.map Prod.fst = entries.map fun entry => keyBytes bytes entry.key := by
    rw [held.keys, List.map_map]
    rfl
  rw [wanted, <- countP_eq_length_filter, <- countP_eq_length_filter]
  calc entries.countP (fun entry => bounds.admits (keyBytes bytes entry.key))
      = (entries.map fun entry => keyBytes bytes entry.key).countP bounds.admits := by
        rw [countP_map]
        rfl
    _ = contents.countP fun entry => bounds.admits entry.1 := by
        rw [<- keys, countP_map]
        rfl

theorem countEntries_eq (held : Held pageSize pages (entries.map (Entry.view bytes)) contents below)
    (sorted : ((entries.map (Entry.view bytes)).map Prod.fst).Pairwise (· < ·)) :
    countEntries bounds bytes entries = (bounds.wanted contents).length := by
  rw [<- length_wanted held]
  unfold countEntries
  split
  · rename_i first last isFirst isLast
    simp only
    split
    · rename_i whole
      rw [Bool.and_eq_true] at whole
      rw [filter_eq_self.mpr (admits_of_edges sorted isFirst isLast whole.1 whole.2)]
    · rfl
  · rfl

theorem foldlM_takeRow {Row : Type} {taken : Bytes -> Bool}
    {read : Bytes -> ValueRef -> Except Error Row} {row : Bytes × Bytes -> Row}
    (held : Held pageSize pages (entries.map (Entry.view bytes)) contents below)
    (reads : ∀ (entry : Entry) value part,
      ValueHolds pageSize pages (ValueRef.view bytes entry.value) value part ->
      (keyBytes bytes entry.key, value) ∈ bounds.wanted contents ->
      read (keyBytes bytes entry.key) entry.value = .ok (row (keyBytes bytes entry.key, value)))
    (admits : ∀ entry ∈ entries, taken (keyBytes bytes entry.key) =
      bounds.admits (keyBytes bytes entry.key))
    (clipped : bounds.clip done = done) :
    entries.foldlM (fun out entry => takeRow bounds taken read (keyBytes bytes entry.key)
      entry.value out) (done.map row) =
        .ok ((bounds.clip (done ++ bounds.wanted contents)).map row) := by
  induction entries generalizing contents done below with
  | nil =>
    cases held with
    | nil => simp [clipped, pure, Except.pure]
  | cons entry entries ih =>
    cases held with
    | @cons _ _ value _ _ rest _ holds fits small apart tail =>
      have later : ∀ (entry : Entry) value part,
          ValueHolds pageSize pages (ValueRef.view bytes entry.value) value part ->
          (keyBytes bytes entry.key, value) ∈ bounds.wanted rest ->
          read (keyBytes bytes entry.key) entry.value =
            .ok (row (keyBytes bytes entry.key, value)) := by
        intro other value part otherHolds member
        refine reads other value part otherHolds ?_
        rw [wanted, mem_filter] at member ⊢
        exact ⟨mem_cons_of_mem _ member.1, member.2⟩
      have admitsLater : ∀ other ∈ entries, taken (keyBytes bytes other.key) =
          bounds.admits (keyBytes bytes other.key) := fun other member =>
        admits other (mem_cons_of_mem _ member)
      rw [foldlM_cons, takeRow, length_map]
      by_cases isFull : bounds.full done.length = true
      · rw [if_pos isFull]
        change entries.foldlM _ (done.map row) = _
        rw [ih tail later admitsLater clipped, bounds.clip_of_full _ clipped isFull,
          bounds.clip_of_full _ clipped isFull]
      · rw [if_neg isFull, admits entry (by simp)]
        by_cases admitted : bounds.admits (keyBytes bytes entry.key) = true
        · have more : bounds.wanted ((keyBytes bytes entry.key, value) :: rest) =
              (keyBytes bytes entry.key, value) :: bounds.wanted rest := by
            simp [wanted, admitted]
          have isRow := reads entry value _ holds (by simp [wanted, admitted])
          rw [if_pos admitted, isRow]
          change entries.foldlM _ (done.map row ++ [row (keyBytes bytes entry.key, value)]) = _
          have next := ih tail later admitsLater
            (bounds.clip_snoc (keyBytes bytes entry.key, value) isFull)
          rw [map_append, map_singleton] at next
          rw [more, next, append_assoc, singleton_append]
        · have same : bounds.wanted ((keyBytes bytes entry.key, value) :: rest) =
              bounds.wanted rest := by
            simp [wanted, admitted]
          rw [if_neg admitted]
          change entries.foldlM _ (done.map row) = _
          rw [same, ih tail later admitsLater clipped]

theorem RawHolds.scanLeafRowIdsInto_eq (holds : RawHolds pageSize pages bytes contents)
    (long : ∀ entry ∈ bounds.wanted contents, 8 ≤ entry.1.length)
    (clipped : bounds.clip done = done) :
    scanLeafRowIdsInto pageSize bounds bytes (done.map fun entry => rowIdOf entry.1) =
      .ok ((bounds.clip (done ++ bounds.wanted contents)).map fun entry => rowIdOf entry.1) := by
  obtain ⟨source, entries, below, decoded, held, -⟩ := holds
  rw [scanLeafRowIdsInto, scanLeafCells_eq decoded]
  refine foldlM_takeRow held (fun entry value part _ member => ?_) (fun _ _ => rfl) clipped
  rw [trailingRowId, if_pos (long _ member)]
  rfl

theorem RawHolds.admitsWholeLeaf (bounds : WalkBounds)
    (holds : RawHolds pageSize pages bytes contents) :
    ∃ whole source entries below, bounds.admitsWholeLeaf bytes pageSize = .ok whole ∧
      decode pageSize bytes = .ok (.leaf source entries) ∧
      Held pageSize pages (entries.map (Entry.view bytes)) contents below ∧
      ∀ entry ∈ entries, (whole || bounds.admits (keyBytes bytes entry.key)) =
        bounds.admits (keyBytes bytes entry.key) := by
  obtain ⟨source, entries, below, decoded, held, sorted⟩ := holds
  rw [WalkBounds.admitsWholeLeaf, leafEdgeKeys_eq decoded]
  cases isFirst : entries.head? with
  | none => exact ⟨false, source, entries, below, rfl, decoded, held, fun _ _ => rfl⟩
  | some first =>
    cases isLast : entries.getLast? with
    | none => exact ⟨false, source, entries, below, rfl, decoded, held, fun _ _ => rfl⟩
    | some last =>
      refine ⟨_, source, entries, below, rfl, decoded, held, fun entry member => ?_⟩
      by_cases edges : bounds.admits (keyBytes bytes first.key) = true ∧
          bounds.admits (keyBytes bytes last.key) = true
      · rw [admits_of_edges sorted isFirst isLast edges.1 edges.2 entry member, Bool.or_true]
      · rw [<- Bool.and_eq_true, Bool.not_eq_true] at edges
        simp only [edges, Bool.false_or]

theorem RawHolds.scanLeafInto_eq (wide : overflowHeaderSize < pageSize)
    (holds : RawHolds pageSize pages bytes contents)
    (long : ∀ entry ∈ bounds.wanted contents, 8 ≤ entry.1.length)
    (clipped : bounds.clip done = done) :
    scanLeafInto pageSize pages bounds bytes (done.map rowOf) =
      .ok ((bounds.clip (done ++ bounds.wanted contents)).map rowOf) := by
  obtain ⟨whole, source, entries, below, isWhole, decoded, held, same⟩ :=
    holds.admitsWholeLeaf bounds
  rw [scanLeafInto, isWhole]
  change scanLeafCells bytes pageSize _ _ = _
  rw [scanLeafCells_eq decoded]
  refine foldlM_takeRow held (fun entry value part holds member => ?_) same clipped
  rw [resolveScannedAt_eq wide holds, trailingRowId, if_pos (long _ member)]
  rfl

theorem RawHolds.countLeaf_eq (holds : RawHolds pageSize pages bytes contents) :
    countLeaf pageSize bounds bytes = .ok (bounds.wanted contents).length := by
  obtain ⟨whole, source, entries, below, isWhole, decoded, held, same⟩ :=
    holds.admitsWholeLeaf bounds
  obtain ⟨-, -, header, -⟩ := leaf_cells decoded
  have counts : ∀ (cells : List Entry) total, cells.foldlM (fun admitted entry =>
      (.ok (if bounds.admits (keyBytes bytes entry.key) then admitted + 1 else admitted) :
        Except Error Nat)) total =
      .ok (total + (cells.filter fun entry => bounds.admits (keyBytes bytes entry.key)).length) := by
    intro cells
    induction cells with
    | nil =>
      intro total
      rfl
    | cons cell cells ih =>
      intro total
      rw [foldlM_cons]
      change cells.foldlM _ _ = _
      rw [ih]
      by_cases admitted : bounds.admits (keyBytes bytes cell.key) = true
      · simp only [admitted, if_true, filter_cons_of_pos, length_cons]
        congr 1
        omega
      · simp [admitted]
  rw [<- length_wanted held, countLeaf, leafCellCount, header]
  simp only [bind, Except.bind]
  by_cases none : entries.length = 0
  · rw [if_pos none]
    have := length_filter_le (fun entry : Entry => bounds.admits (keyBytes bytes entry.key)) entries
    have zero : (entries.filter fun entry =>
        bounds.admits (keyBytes bytes entry.key)).length = 0 := by omega
    rw [zero]
    rfl
  · rw [if_neg none, isWhole]
    cases whole with
    | true =>
      rw [filter_eq_self.mpr fun entry member => by
        rw [<- same entry member]
        rfl]
      rfl
    | false =>
      simp only [Bool.false_eq_true, if_false]
      rw [scanLeafCells_eq decoded, counts, Nat.zero_add]

end LeafReads

/-! ## The left-to-right walks -/

/-- What a walk needs of its pages: `stands out done` says that it has taken the entries
`done` so far, and every leaf of the tree adds its wanted ones. -/
structure Walker.Faithful {Leaf Out : Type} (walker : Walker Leaf Out) (pageSize : Nat)
    (pages : Pages) (bounds : WalkBounds) (all : List (Bytes × Bytes)) (whole : Finset Nat)
    (stands : Out -> List (Bytes × Bytes) -> Prop) : Prop where
  full : ∀ out done, stands out done -> walker.full out = bounds.full done.length
  leaf : ∀ id low high entries below out done, LeafHolds pageSize pages id low high entries below ->
    insert id below ⊆ whole -> InSpan all low high entries -> stands out done ->
    bounds.clip done = done -> ∃ leaf after, walker.fetch id = .ok (.leaf leaf) ∧
      walker.scan id low high leaf out = .ok after ∧
      stands after (bounds.clip (done ++ bounds.wanted entries))
  internal : ∀ id leftmost shown, pages.Shows id (.internal leftmost shown) -> ∃ bytes cells,
    walker.fetch id = .ok (.internal bytes leftmost cells) ∧
      cells.map (Separator.view bytes) = shown

section Walks

variable {Leaf Out : Type} {walker : Walker Leaf Out} {pageSize : Nat} {pages : Pages}
  {bounds : WalkBounds} {all : List (Bytes × Bytes)} {whole : Finset Nat}
  {stands : Out -> List (Bytes × Bytes) -> Prop} {low high : Option Bytes}

section Visits

variable {meaning : Meaning Bytes Bytes Nat}
  {visit : Nat -> Option Bytes -> Option Bytes -> Out -> Except Error Out}
  (visits : ∀ child low high entries rests out done, meaning child low high entries rests ->
    rests ⊆ whole -> InSpan all low high entries -> stands out done -> bounds.clip done = done ->
    ∃ after, visit child low high out = .ok after ∧
      stands after (bounds.clip (done ++ bounds.wanted entries)))
  (fenced : ∀ child low high entries rests, meaning child low high entries rests ->
    Fenced low high entries)
include visits fenced

variable {entries done : List (Bytes × Bytes)} {rests : Finset Nat}

theorem visit_or_pass {child : Nat} {edge : Option Bytes} {go : Bool} {out : Out}
    (meant : meaning child low high entries rests) (within : rests ⊆ whole)
    (span : InSpan all low high entries) (stood : stands out done)
    (clipped : bounds.clip done = done) (isEdge : edge = none ∨ edge = high)
    (skips : go = false -> (∃ separator, low = some separator ∧
      bounds.belowUpper separator = false) ∨ bounds.aboveLower edge = false) :
    ∃ after, Walker.visitWhen go (visit child low high) out = .ok after ∧
      stands after (bounds.clip (done ++ bounds.wanted entries)) := by
  cases go with
  | true => exact visits child low high entries rests out done meant within span stood clipped
  | false =>
    refine ⟨out, rfl, ?_⟩
    rw [wanted_of_skipped (fenced _ _ _ _ _ meant) ((skips rfl).imp_right fun isAbove => ?_),
      append_nil, clipped]
    · exact stood
    · cases edge with
      | none => simp [WalkBounds.aboveLower] at isAbove
      | some edge => exact ⟨edge, by simpa [eq_comm] using isEdge, isAbove⟩

theorem cells_spec (faithful : walker.Faithful pageSize pages bounds all whole stands)
    {bytes : Bytes} {first : Separator} {cells : List Separator} {out : Out}
    (spine : Spine meaning (some (keyBytes bytes first.key)) high first.child
      (cells.map (Separator.view bytes)) entries rests) (within : rests ⊆ whole)
    (span : InSpan all (some (keyBytes bytes first.key)) high entries) (stood : stands out done)
    (clipped : bounds.clip done = done) :
    ∃ after, walker.cells bounds bytes visit high (first :: cells) out = .ok after ∧
      stands after (bounds.clip (done ++ bounds.wanted entries)) := by
  have skips : ∀ separator edge, (bounds.belowUpper separator && bounds.aboveLower edge) = false ->
      (∃ known, some separator = some known ∧ bounds.belowUpper known = false) ∨
        bounds.aboveLower edge = false := by
    intro separator edge isFalse
    rw [Bool.and_eq_false_iff] at isFalse
    exact isFalse.imp_left fun isBelow => ⟨separator, rfl, isBelow⟩
  induction cells generalizing first entries done rests out with
  | nil =>
    rw [Walker.cells, faithful.full out done stood]
    by_cases isFull : bounds.full done.length = true
    · rw [if_pos isFull, bounds.clip_of_full _ clipped isFull]
      exact ⟨out, rfl, stood⟩
    · rw [if_neg isFull]
      cases spine with
      | last meant =>
        obtain ⟨after, isAfter, stoodAfter⟩ := visit_or_pass visits fenced meant within span
          stood clipped (.inl rfl) (skips (keyBytes bytes first.key) none)
        refine ⟨after, ?_, stoodAfter⟩
        simp only [head?_nil, map_none, none_or]
        rw [isAfter]
        rfl
  | cons next cells ih =>
    rw [Walker.cells, faithful.full out done stood]
    by_cases isFull : bounds.full done.length = true
    · rw [if_pos isFull, bounds.clip_of_full _ clipped isFull]
      exact ⟨out, rfl, stood⟩
    · rw [if_neg isFull]
      cases spine with
      | cons parts meant others apart =>
        obtain ⟨leftSpan, rightSpan⟩ := span.split parts (fenced _ _ _ _ _ meant)
          (others.fenced fenced)
        obtain ⟨middle, isMiddle, stoodMiddle⟩ := visit_or_pass visits fenced meant
          (Finset.subset_union_left.trans within) leftSpan stood clipped (.inr rfl)
          (skips (keyBytes bytes first.key) _)
        obtain ⟨after, isAfter, stoodAfter⟩ := ih others
          (Finset.subset_union_right.trans within) rightSpan stoodMiddle (bounds.clip_idem _)
        refine ⟨after, ?_, ?_⟩
        · simp only [head?_cons, map_some, some_or]
          rw [isMiddle]
          exact isAfter
        · rw [bounds.clip_clip, append_assoc, <- bounds.wanted_append] at stoodAfter
          exact stoodAfter

end Visits

theorem Walker.Faithful.walk_spec
    (faithful : walker.Faithful pageSize pages bounds all whole stands) {depth height id : Nat}
    {entries done : List (Bytes × Bytes)} {rests : Finset Nat} {out : Out}
    (subtree : Subtree pageSize pages height id low high entries rests) (within : rests ⊆ whole)
    (span : InSpan all low high entries) (stood : stands out done)
    (clipped : bounds.clip done = done) (deep : height < depth) :
    ∃ after, walker.walk bounds depth id low high out = .ok after ∧
      stands after (bounds.clip (done ++ bounds.wanted entries)) := by
  induction depth generalizing height id low high entries rests out done with
  | zero => omega
  | succ depth ih =>
    rw [Walker.walk, faithful.full out done stood]
    by_cases valid : id = 0
    · subst valid
      obtain ⟨rfl, -⟩ := subtree.of_zero
      rw [if_pos (.inl rfl), bounds.wanted_nil, append_nil, clipped]
      exact ⟨out, rfl, stood⟩
    by_cases isFull : bounds.full done.length = true
    · rw [if_pos (.inr isFull), bounds.clip_of_full _ clipped isFull]
      exact ⟨out, rfl, stood⟩
    rw [if_neg (by simp [valid, isFull])]
    obtain ⟨less, below, rfl, rfl, outside, leaf | inner⟩ := subtree.of_ne valid
    · obtain ⟨found, after, isFound, isAfter, stoodAfter⟩ :=
        faithful.leaf id low high entries below out done leaf within span stood clipped
      rw [isFound]
      exact ⟨after, isAfter, stoodAfter⟩
    · obtain ⟨leftmost, shown, shows, -, -, spine⟩ := inner
      obtain ⟨bytes, cells, isFound, rfl⟩ := faithful.internal id leftmost shown shows
      rw [isFound]
      have visits : ∀ child low high entries rests out done,
          Subtree pageSize pages less child low high entries rests -> rests ⊆ whole ->
          InSpan all low high entries -> stands out done -> bounds.clip done = done ->
          ∃ after, walker.walk bounds depth child low high out = .ok after ∧
            stands after (bounds.clip (done ++ bounds.wanted entries)) :=
        fun _ _ _ _ _ _ _ subtree within span stood clipped =>
          ih subtree within span stood clipped (by omega)
      have fenced : ∀ child low high entries rests,
          Subtree pageSize pages less child low high entries rests ->
          Fenced low high entries := fun _ _ _ _ _ subtree => subtree.fenced
      have under : below ⊆ whole := (Finset.subset_insert _ _).trans within
      cases cells with
      | nil =>
        cases spine with
        | last meant =>
          obtain ⟨after, isAfter, stoodAfter⟩ := visit_or_pass visits fenced meant under
            span stood clipped (.inl rfl) .inr
          refine ⟨after, ?_, stoodAfter⟩
          change (Walker.visitWhen (bounds.aboveLower none)
            (walker.walk bounds depth leftmost low high) out >>= _) = _
          rw [isAfter]
          rfl
      | cons next cells =>
        cases spine with
        | cons parts meant others apart =>
          obtain ⟨leftSpan, rightSpan⟩ := span.split parts (fenced _ _ _ _ _ meant)
            (others.fenced fenced)
          obtain ⟨middle, isMiddle, stoodMiddle⟩ := visit_or_pass visits fenced meant
            (Finset.subset_union_left.trans under) leftSpan stood clipped (.inr rfl) .inr
          obtain ⟨after, isAfter, stoodAfter⟩ := cells_spec visits fenced faithful others
            (Finset.subset_union_right.trans under) rightSpan stoodMiddle
            (bounds.clip_idem _)
          refine ⟨after, ?_, ?_⟩
          · change (Walker.visitWhen (bounds.aboveLower (some (keyBytes bytes next.key)))
              (walker.walk bounds depth leftmost low (some (keyBytes bytes next.key)))
              out >>= _) = _
            rw [isMiddle]
            exact isAfter
          · rw [bounds.clip_clip, append_assoc, <- bounds.wanted_append] at stoodAfter
            exact stoodAfter

section Keeps

variable {meaning : Meaning Bytes Bytes Nat} {keeps : Out -> Prop}

variable {entries : List (Bytes × Bytes)} {rests : Finset Nat}

theorem cells_keeps {visit : Nat -> Option Bytes -> Option Bytes -> Out -> Except Error Out}
    (visits : ∀ child low high entries rests out after, meaning child low high entries rests ->
      rests ⊆ whole -> InSpan all low high entries -> keeps out ->
      visit child low high out = .ok after -> keeps after)
    (fenced : ∀ child low high entries rests, meaning child low high entries rests ->
      Fenced low high entries) {bytes : Bytes} {first : Separator} {cells : List Separator}
    {out after : Out} (spine : Spine meaning (some (keyBytes bytes first.key)) high first.child
      (cells.map (Separator.view bytes)) entries rests) (within : rests ⊆ whole)
    (span : InSpan all (some (keyBytes bytes first.key)) high entries) (kept : keeps out)
    (done : walker.cells bounds bytes visit high (first :: cells) out = .ok after) :
    keeps after := by
  have passes : ∀ {child low high entries rests out after} {go : Bool},
      meaning child low high entries rests -> rests ⊆ whole -> InSpan all low high entries ->
      keeps out -> Walker.visitWhen go (visit child low high) out = .ok after -> keeps after := by
    intro child low high entries rests out after go meant within span kept done
    cases go with
    | true => exact visits child low high entries rests out after meant within span kept done
    | false =>
      cases done
      exact kept
  induction cells generalizing first entries rests out with
  | nil =>
    rw [Walker.cells] at done
    split at done
    · cases done
      exact kept
    · obtain ⟨middle, isMiddle, rest⟩ := bind_eq_ok done
      cases rest
      cases spine with
      | last meant => exact passes meant within span kept isMiddle
  | cons next cells ih =>
    rw [Walker.cells] at done
    split at done
    · cases done
      exact kept
    · obtain ⟨middle, isMiddle, rest⟩ := bind_eq_ok done
      cases spine with
      | cons parts meant others apart =>
        obtain ⟨leftSpan, rightSpan⟩ := span.split parts (fenced _ _ _ _ _ meant)
          (others.fenced fenced)
        exact ih others (Finset.subset_union_right.trans within) rightSpan
          (passes meant (Finset.subset_union_left.trans within) leftSpan kept isMiddle) rest

theorem Walker.walk_keeps (leaf : ∀ id low high entries below leaf out after,
      LeafHolds pageSize pages id low high entries below -> insert id below ⊆ whole ->
      InSpan all low high entries -> keeps out -> walker.fetch id = .ok (.leaf leaf) ->
      walker.scan id low high leaf out = .ok after -> keeps after)
    (leaves : ∀ id low high entries below, LeafHolds pageSize pages id low high entries below ->
      ∃ leaf, walker.fetch id = .ok (.leaf leaf))
    (internal : ∀ id leftmost shown, pages.Shows id (.internal leftmost shown) -> ∃ bytes cells,
      walker.fetch id = .ok (.internal bytes leftmost cells) ∧
        cells.map (Separator.view bytes) = shown) {depth height id : Nat} {out after : Out}
    (subtree : Subtree pageSize pages height id low high entries rests) (within : rests ⊆ whole)
    (span : InSpan all low high entries) (kept : keeps out)
    (done : walker.walk bounds depth id low high out = .ok after) : keeps after := by
  induction depth generalizing height id low high entries rests out after with
  | zero => cases done
  | succ depth ih =>
    rw [Walker.walk] at done
    by_cases stop : id = 0 ∨ walker.full out = true
    · rw [if_pos stop] at done
      cases done
      exact kept
    rw [if_neg stop] at done
    obtain ⟨less, below, rfl, rfl, outside, isLeaf | inner⟩ :=
      subtree.of_ne fun isZero => stop (.inl isZero)
    · obtain ⟨found, isFound⟩ := leaves id low high entries below isLeaf
      rw [isFound] at done
      exact leaf id low high entries below found out after isLeaf within span kept isFound done
    · obtain ⟨leftmost, shown, shows, -, -, spine⟩ := inner
      obtain ⟨bytes, cells, isFound, rfl⟩ := internal id leftmost shown shows
      rw [isFound] at done
      have fenced : ∀ child low high entries rests,
          Subtree pageSize pages less child low high entries rests ->
          Fenced low high entries := fun _ _ _ _ _ subtree => subtree.fenced
      have under : below ⊆ whole := (Finset.subset_insert _ _).trans within
      obtain ⟨opened, ⟨⟩, visited⟩ := bind_eq_ok done
      obtain ⟨middle, isMiddle, rest⟩ := bind_eq_ok visited
      cases cells with
      | nil =>
        cases rest
        cases spine with
        | last meant => exact ih meant under span kept isMiddle
      | cons next cells =>
        cases spine with
        | cons parts meant others apart =>
          obtain ⟨leftSpan, rightSpan⟩ := span.split parts meant.fenced (others.fenced fenced)
          have keptMiddle : keeps middle := by
            unfold Walker.visitWhen at isMiddle
            split at isMiddle
            · exact ih meant (Finset.subset_union_left.trans under) leftSpan kept isMiddle
            · cases isMiddle
              exact kept
          have visits : ∀ child low high entries rests out after,
              Subtree pageSize pages less child low high entries rests -> rests ⊆ whole ->
              InSpan all low high entries -> keeps out ->
              walker.walk bounds depth child low high out = .ok after -> keeps after :=
            fun _ _ _ _ _ _ _ subtree within span kept done =>
              ih subtree within span kept done
          exact cells_keeps visits fenced others (Finset.subset_union_right.trans under)
            rightSpan keptMiddle rest

end Keeps

end Walks

/-! ## The walk from the right edge -/

section Last

variable {pageSize : Nat} {pages : Pages} {bounds : WalkBounds} {low high : Option Bytes}

variable {bytes : Bytes} {entries : List (Bytes × Bytes)} {rests : Finset Nat} {first : Separator}

theorem lastEntry_spec (wide : overflowHeaderSize < pageSize) {cells : List Entry}
    (held : Held pageSize pages (cells.map (Entry.view bytes)) entries rests) :
    lastEntry pageSize pages bounds bytes cells.reverse = .ok (bounds.wanted entries).getLast? := by
  induction cells using List.reverseRecOn generalizing entries rests with
  | nil =>
    cases held with
    | nil => rfl
  | append_singleton cells cell ih =>
    rw [map_append] at held
    obtain ⟨front, last, frontRests, lastRests, frontHeld, lastHeld, rfl, -, -⟩ := held.cut
    cases lastHeld with
    | @cons _ _ value _ _ _ _ holds fits small apart tail =>
      cases tail with
      | nil =>
        rw [reverse_append, reverse_singleton, singleton_append, lastEntry,
          bounds.wanted_append, getLast?_append]
        by_cases admitted : bounds.admits (keyBytes bytes cell.key) = true
        · have only : bounds.wanted [(keyBytes bytes cell.key, value)] =
              [(keyBytes bytes cell.key, value)] := by simp [wanted, admitted]
          rw [if_pos admitted, resolveScannedAt_eq wide holds]
          change _ = Except.ok ((bounds.wanted [(keyBytes bytes cell.key, value)]).getLast?.or _)
          rw [only]
          rfl
        · have none : bounds.wanted [(keyBytes bytes cell.key, value)] = [] := by
            simp [wanted, admitted]
          rw [if_neg admitted, ih frontHeld]
          change _ = Except.ok ((bounds.wanted [(keyBytes bytes cell.key, value)]).getLast?.or _)
          rw [none]
          rfl

theorem lastCells_append (bytes : Bytes) (visit : Nat -> Except Error (Option (Bytes × Bytes)))
    (later : List Separator) (cell : Separator) (next : Option Bytes) :
    lastCells bounds bytes visit (later ++ [cell]) next =
      lastCells bounds bytes visit later next >>= fun found => match found with
        | some found => .ok (some found)
        | none => lastCells bounds bytes visit [cell]
            ((later.getLast?.map fun cell => keyBytes bytes cell.key).or next) := by
  induction later generalizing next with
  | nil => rfl
  | cons first later ih =>
    have edge : ((first :: later).getLast?.map fun cell => keyBytes bytes cell.key).or next =
        (later.getLast?.map fun cell => keyBytes bytes cell.key).or
          (some (keyBytes bytes first.key)) := by
      cases isLast : later.getLast? with
      | none =>
        obtain rfl := getLast?_eq_none_iff.mp isLast
        rfl
      | some last => rw [getLast?_cons, isLast]; rfl
    rw [cons_append, lastCells, edge]
    simp only [lastCells.eq_2 bounds bytes visit next first later]
    split
    · cases visit first.child with
      | error error => rfl
      | ok found =>
        cases found with
        | none => exact ih _
        | some found => rfl
    · exact ih _

variable {meaning : Meaning Bytes Bytes Nat} {visit : Nat -> Except Error (Option (Bytes × Bytes))}
  (visits : ∀ child low high entries rests, meaning child low high entries rests ->
    visit child = .ok (bounds.wanted entries).getLast?)
  (fenced : ∀ child low high entries rests, meaning child low high entries rests ->
    Fenced low high entries)
include visits fenced

theorem lastCells_single {edge : Option Bytes}
    (meant : meaning first.child (some (keyBytes bytes first.key)) high entries rests)
    (isEdge : edge = none ∨ edge = high) :
    lastCells bounds bytes visit [first] edge = .ok (bounds.wanted entries).getLast? := by
  simp only [lastCells]
  split
  · rw [visits _ _ _ _ _ meant]
    cases (bounds.wanted entries).getLast? <;> rfl
  · rename_i skipped
    rw [wanted_of_skipped (fenced _ _ _ _ _ meant)]
    · rfl
    · rw [Bool.not_eq_true, Bool.and_eq_false_iff] at skipped
      refine skipped.imp (fun isBelow => ⟨_, rfl, isBelow⟩) fun isAbove => ?_
      cases edge with
      | none => simp [WalkBounds.aboveLower] at isAbove
      | some edge => exact ⟨edge, by simpa [eq_comm] using isEdge, isAbove⟩

theorem lastCells_spec {cells : List Separator}
    (spine : Spine meaning (some (keyBytes bytes first.key)) high first.child
      (cells.map (Separator.view bytes)) entries rests) :
    lastCells bounds bytes visit (first :: cells).reverse none =
      .ok (bounds.wanted entries).getLast? := by
  induction cells generalizing first entries rests with
  | nil =>
    cases spine with
    | last meant => exact lastCells_single visits fenced meant (.inl rfl)
  | cons next cells ih =>
    cases spine with
    | cons parts meant others apart =>
      rw [reverse_cons, lastCells_append, ih others, bounds.wanted_append, getLast?_append]
      have edge : ((next :: cells).reverse.getLast?.map fun cell =>
          keyBytes bytes cell.key).or none = some (keyBytes bytes next.key) := by
        simp
      rw [edge]
      cases (bounds.wanted _).getLast? with
      | some found => rfl
      | none => exact lastCells_single visits fenced meant (.inr rfl)

end Last

theorem walkLast_spec {pageSize : Nat} {pages : Pages} {bounds : WalkBounds}
    (wide : overflowHeaderSize < pageSize) {depth height id : Nat} {low high : Option Bytes}
    {entries : List (Bytes × Bytes)} {rests : Finset Nat}
    (subtree : Subtree pageSize pages height id low high entries rests) (deep : height < depth) :
    walkLast pageSize pages bounds depth id = .ok (bounds.wanted entries).getLast? := by
  induction depth generalizing height id low high entries rests with
  | zero => omega
  | succ depth ih =>
    rw [walkLast]
    by_cases valid : id = 0
    · subst valid
      obtain ⟨rfl, -⟩ := subtree.of_zero
      rw [if_pos rfl]
      rfl
    rw [if_neg valid]
    obtain ⟨less, below, rfl, rfl, outside, leaf | inner⟩ := subtree.of_ne valid
    · obtain ⟨bytes, cells, found, -, -, -, held, -⟩ := leaf.cells
      rw [found]
      exact lastEntry_spec wide held
    · obtain ⟨shownLeftmost, shownCells, ⟨node, found, -, isView⟩, -, -, spine⟩ := inner
      have visits : ∀ child low high entries rests,
          Subtree pageSize pages less child low high entries rests ->
          walkLast pageSize pages bounds depth child = .ok (bounds.wanted entries).getLast? :=
        fun _ _ _ _ _ subtree => ih subtree (by omega)
      have fenced : ∀ child low high entries rests,
          Subtree pageSize pages less child low high entries rests ->
          Fenced low high entries := fun _ _ _ _ _ subtree => subtree.fenced
      cases node with
      | leaf bytes entries => simp [Node.view] at isView
      | internal bytes leftmost cells =>
        obtain ⟨rfl, rfl⟩ : leftmost = shownLeftmost ∧
            cells.map (Separator.view bytes) = shownCells := by simpa [Node.view] using isView
        rw [found]
        change (lastCells bounds bytes (walkLast pageSize pages bounds depth) cells.reverse none
          >>= _) = _
        cases cells with
        | nil =>
          cases spine with
          | last meant => exact visits _ _ _ _ _ meant
        | cons next cells =>
          cases spine with
          | cons parts meant others apart =>
            rw [lastCells_spec visits fenced others, bounds.wanted_append, getLast?_append]
            cases (bounds.wanted _).getLast? with
            | some found => rfl
            | none =>
              change (if bounds.aboveLower (some (keyBytes bytes next.key)) = true then
                walkLast pageSize pages bounds depth leftmost else .ok none) = _
              split
              · exact visits _ _ _ _ _ meant
              · rename_i skipped
                rw [wanted_of_skipped (fenced _ _ _ _ _ meant)
                  (.inr ⟨_, rfl, Bool.eq_false_iff.mpr skipped⟩)]
                rfl

end CowBTree

end InlaySql.Btree
