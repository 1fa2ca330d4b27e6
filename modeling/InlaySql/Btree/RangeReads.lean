import InlaySql.Btree.Cohort
import InlaySql.Btree.OrderedMap

/-!
# Every range read is the same read

The reads of one tree, whatever its caches hold and wherever its cursors stand. A cursor
names a leaf of the tree under the root it was taken from; that tree never changes, so the
leaf still holds what it held, and it is used for that root only.
-/

namespace InlaySql.Btree

open List Option Lib Wal

namespace CowBTree

/-! ## Opening a page -/

section Opening

variable {area : Nat -> Bytes} {tree : CowBTree} {entries : List (Bytes × Bytes)} {id : Nat}
  {resident : Nat -> Bool}

theorem Sound.rawPage_eq (sound : Sound (Pages.ofArea tree.pageSize area) tree entries)
    (room : tree.readNext ≤ 2 ^ 64) {view : NodeView}
    (shows : (tree.readPages (Pages.ofArea tree.pageSize area)).Shows id view) :
    ∃ bytes node, tree.rawPage area id = .ok bytes ∧ decode tree.pageSize bytes = .ok node ∧
      node.Ranged ∧ node.view = view := by
  obtain ⟨node, isNode, ranged, isView⟩ := shows
  unfold rawPage
  by_cases pending : tree.hasPending = true
  · rw [readPages, if_pos pending] at isNode
    rw [if_pos pending]
    simp only [pages, nodeAt] at isNode
    cases found : tree.dirty[id]? with
    | none =>
      rw [found] at isNode
      exact ⟨_, node, rfl, isNode, ranged, isView⟩
    | some page =>
      cases page with
      | encoded bytes =>
        rw [found] at isNode
        exact ⟨_, node, rfl, isNode, ranged, isView⟩
      | decoded cells =>
        rw [found] at isNode
        cases isNode
        obtain ⟨fits, below⟩ := sound.tidy.decoded id node found
        obtain ⟨bytes, isBytes, -, decodes⟩ := decode_encodeNode fits sound.large
        rw [readNext, if_pos pending] at room
        obtain ⟨decoded, isDecoded, decodedRanged, sameView⟩ := decodes (below.mono room)
        exact ⟨bytes, decoded, isBytes, isDecoded, decodedRanged, sameView.trans isView⟩
  · rw [readPages, if_neg pending] at isNode
    rw [if_neg pending]
    exact ⟨_, node, rfl, isNode, ranged, isView⟩

variable {node : Node}

theorem cachedPage_eq (cached : tree.cachedPage resident area id = some node) :
    decode tree.pageSize (area id) = .ok node ∧ tree.rawPage area id = .ok (area id) := by
  unfold cachedPage at cached
  split at cached
  · cases cached
  · rename_i clean
    split at cached
    · refine ⟨?_, ?_⟩
      · cases isNode : decode tree.pageSize (area id) with
        | error error => simp [isNode, Except.toOption] at cached
        | ok found =>
          rw [isNode] at cached
          cases cached
          rfl
      · unfold rawPage
        by_cases pending : tree.hasPending = true
        · rw [if_pos pending]
          have none : tree.dirty[id]? = none := by
            rw [<- not_isSome_iff_eq_none, <- Std.TreeMap.mem_iff_isSome_getElem?]
            exact fun member => clean ⟨pending, member⟩
          rw [none]
        · rw [if_neg pending]
    · cases cached

/-- What a walk makes of a decoded page. -/
def Opened.ofDecoded : Node -> Opened Bytes
  | .leaf bytes _ => .leaf bytes
  | .internal bytes leftmost cells => .internal bytes leftmost cells

theorem openBytes_eq {pageSize : Nat} {bytes : Bytes} (decoded : decode pageSize bytes = .ok node) :
    openBytes pageSize bytes = .ok (.ofDecoded node) := by
  obtain ⟨count, slots, -, -, ⟨kind, cells, -, rfl⟩ | ⟨kind, leftmost, cells, rfl⟩⟩ :=
    decode_eq_ok decoded
  · simp only [openBytes]
    rw [if_pos kind]
    rfl
  · simp only [openBytes]
    rw [if_neg (by rw [kind]; decide), if_pos kind, decoded]
    rfl

theorem openRaw_eq {bytes : Bytes} (isRaw : tree.rawPage area id = .ok bytes)
    (decoded : decode tree.pageSize bytes = .ok node) :
    tree.openRaw resident area id = .ok (.ofDecoded node) := by
  unfold openRaw
  cases cached : tree.cachedPage resident area id with
  | none =>
    rw [isRaw]
    exact openBytes_eq decoded
  | some found =>
    obtain ⟨isFound, isArea⟩ := cachedPage_eq cached
    obtain rfl : bytes = area id := by
      rw [isRaw] at isArea
      exact Except.ok.inj isArea
    obtain rfl : found = node := by
      rw [isFound] at decoded
      exact Except.ok.inj decoded
    cases found <;> rfl

theorem Sound.openRaw_leaf (sound : Sound (Pages.ofArea tree.pageSize area) tree entries)
    (room : tree.readNext ≤ 2 ^ 64) (resident : Nat → Bool) {low high : Option Bytes} {contents : List (Bytes × Bytes)}
    {below : Finset Nat} (leaf : LeafHolds tree.pageSize
      (tree.readPages (Pages.ofArea tree.pageSize area)) id low high contents below) :
    ∃ bytes, tree.openRaw resident area id = .ok (.leaf bytes) ∧
      RawHolds tree.pageSize (tree.readPages (Pages.ofArea tree.pageSize area)) bytes contents ∧
      (tree.hasPending = false -> bytes = area id) := by
  obtain ⟨cells, shows, -, -, fenced, held⟩ := leaf
  obtain ⟨bytes, node, isRaw, decoded, ranged, isView⟩ := sound.rawPage_eq room shows
  cases node with
  | internal source leftmost cells => simp [Node.view] at isView
  | leaf source found =>
    obtain ⟨rfl, -, -, -⟩ := leaf_cells decoded
    obtain rfl : found.map (Entry.view source) = cells := by simpa [Node.view] using isView
    refine ⟨source, openRaw_eq isRaw decoded, ⟨source, found, below, decoded, held, ?_⟩, ?_⟩
    · rw [<- held.keys]
      exact pairwise_map.mpr fenced.sorted
    · intro idle
      rw [rawPage, if_neg (by simp [idle])] at isRaw
      exact (Except.ok.inj isRaw).symm

theorem Sound.openRaw_internal (sound : Sound (Pages.ofArea tree.pageSize area) tree entries)
    (room : tree.readNext ≤ 2 ^ 64) {leftmost : Nat} {shown : List (Bytes × Nat)}
    (shows : (tree.readPages (Pages.ofArea tree.pageSize area)).Shows id
      (.internal leftmost shown)) :
    ∃ bytes cells, tree.openRaw resident area id = .ok (.internal bytes leftmost cells) ∧
      cells.map (Separator.view bytes) = shown := by
  obtain ⟨bytes, node, isRaw, decoded, ranged, isView⟩ := sound.rawPage_eq room shows
  cases node with
  | leaf source found => simp [Node.view] at isView
  | internal source first cells =>
    obtain ⟨rfl, same⟩ : first = leftmost ∧ cells.map (Separator.view source) = shown := by
      simpa [Node.view] using isView
    exact ⟨source, cells, openRaw_eq isRaw decoded, same⟩

theorem openCounted_eq (resident : Nat -> Bool)
    (isNode : (tree.readPages (Pages.ofArea tree.pageSize area)).node id = .ok node) :
    tree.openCounted resident area id = .ok (.ofNode node) ∨
      (decode tree.pageSize (area id) = .ok node ∧ ∃ bytes entries, node = .leaf bytes entries ∧
          tree.openCounted resident area id = .ok (.leaf (.raw bytes))) := by
  have committed : (if tree.hasPending then tree.dirty[id]? else none) = none ->
      decode tree.pageSize (area id) = .ok node := by
    intro none
    by_cases pending : tree.hasPending = true
    · rw [if_pos pending] at none
      rw [readPages, if_pos pending] at isNode
      simp only [pages, nodeAt, none] at isNode
      exact isNode
    · rw [readPages, if_neg pending] at isNode
      exact isNode
  unfold openCounted
  cases found : if tree.hasPending then tree.dirty[id]? else none with
  | none =>
    have decoded := committed found
    cases cached : tree.cachedPage resident area id with
    | some known =>
      obtain ⟨isKnown, -⟩ := cachedPage_eq cached
      rw [decoded] at isKnown
      cases isKnown
      exact .inl rfl
    | none =>
      rw [openBytes_eq decoded]
      cases node with
      | leaf bytes entries => exact .inr ⟨decoded, bytes, entries, rfl, rfl⟩
      | internal bytes leftmost cells => exact .inl rfl
  | some page =>
    have pending : tree.hasPending = true := by
      by_contra idle
      rw [if_neg idle] at found
      cases found
    rw [if_pos pending] at found
    rw [readPages, if_pos pending] at isNode
    simp only [pages, nodeAt, found] at isNode
    cases page with
    | encoded bytes =>
      simp only at isNode ⊢
      rw [isNode]
      exact .inl rfl
    | decoded known =>
      cases isNode
      exact .inl rfl

end Opening

/-! ## What the walks return -/

section Reads

variable {area : Nat -> Bytes} {tree : CowBTree} {entries : List (Bytes × Bytes)}
  {resident : Nat -> Bool} {bounds : WalkBounds} {whole : Finset Nat}

theorem count_faithful (resident : Nat -> Bool) (unlimited : bounds.limit = none) :
    (tree.countWalker resident area bounds).Faithful tree.pageSize
      (tree.readPages (Pages.ofArea tree.pageSize area)) bounds entries whole
      (fun total done => total = done.length) where
  full total done _ := by simp [countWalker, WalkBounds.full, unlimited]
  leaf id low high contents below total done leaf _ _ isTotal _ := by
    obtain ⟨bytes, cells, isNode, -, -, -, held, sorted⟩ := leaf.cells
    have counted : (bounds.clip (done ++ bounds.wanted contents)).length =
        total + (bounds.wanted contents).length := by
      rw [isTotal, WalkBounds.clip, unlimited, length_append]
    rcases openCounted_eq resident isNode with
      opened | ⟨decoded, source, found, same, opened⟩
    · refine ⟨_, _, opened, ?_, counted.symm⟩
      change Except.ok (total + countEntries bounds bytes cells) = _
      rw [countEntries_eq held sorted]
    · obtain ⟨rfl, rfl⟩ : bytes = source ∧ cells = found := by simpa using same
      obtain ⟨rfl, -⟩ := leaf_cells decoded
      have raw : RawHolds tree.pageSize (tree.readPages (Pages.ofArea tree.pageSize area)) (area id)
          contents := ⟨_, cells, below, decoded, held, sorted⟩
      refine ⟨_, _, opened, ?_, counted.symm⟩
      change (countLeaf tree.pageSize bounds (area id) >>= _) = _
      rw [raw.countLeaf_eq]
      rfl
  internal id leftmost shown shows := by
    obtain ⟨node, isNode, -, isView⟩ := shows
    cases node with
    | leaf bytes cells => simp [Node.view] at isView
    | internal bytes first cells =>
      obtain ⟨rfl, same⟩ : first = leftmost ∧ cells.map (Separator.view bytes) = shown := by
        simpa [Node.view] using isView
      rcases openCounted_eq resident isNode with
        opened | ⟨-, source, found, absurd, -⟩
      · exact ⟨bytes, cells, opened, same⟩
      · cases absurd

/-- The leaf at `id` holds what the tree under `root` holds in `[low, high)`. -/
def LeafOf (pageSize : Nat) (pages : Pages) (next root id : Nat) (low high : Option Bytes) : Prop :=
  ∃ height all rests held below, Subtree pageSize pages height root none none all rests ∧
    (∀ id ∈ rests, id < next) ∧ LeafHolds pageSize pages id low high held below ∧
    insert id below ⊆ rests ∧ InSpan all low high held

/-- The keys a read returns end in a row id. -/
def RowKeys (bounds : WalkBounds) (entries : List (Bytes × Bytes)) : Prop :=
  ∀ entry ∈ bounds.wanted entries, 8 ≤ entry.1.length

theorem RowKeys.leaf {low high : Option Bytes} {contents : List (Bytes × Bytes)}
    (long : RowKeys bounds entries) (span : InSpan entries low high contents) :
    RowKeys bounds contents := by
  intro entry member
  rw [WalkBounds.wanted, mem_filter] at member
  refine long entry ?_
  rw [WalkBounds.wanted, mem_filter]
  exact ⟨((span entry).mp member.1).1, member.2⟩

section

variable (sound : Sound (Pages.ofArea tree.pageSize area) tree entries)

include sound

section

variable (room : tree.readNext ≤ 2 ^ 64) (long : RowKeys bounds entries) (resident : Nat -> Bool)

include room long

theorem Sound.rowId_faithful : (tree.rowIdWalker resident area bounds).Faithful tree.pageSize
      (tree.readPages (Pages.ofArea tree.pageSize area)) bounds entries whole
      (fun out done => out.1 = done.map fun entry => rowIdOf entry.1) where
  full out done isOut := by
    simp only [rowIdWalker]
    rw [isOut, length_map]
  leaf id low high contents below out done leaf _ span isOut clipped := by
    obtain ⟨bytes, opened, raw, -⟩ := sound.openRaw_leaf room resident leaf
    refine ⟨bytes, (_, some { leaf := id, low, high }), opened, ?_, rfl⟩
    simp only [rowIdWalker]
    rw [isOut, raw.scanLeafRowIdsInto_eq (long.leaf span) clipped]
    rfl
  internal id leftmost shown shows := sound.openRaw_internal room shows

theorem Sound.rowValue_faithful : (tree.rowValueWalker resident area bounds).Faithful tree.pageSize
      (tree.readPages (Pages.ofArea tree.pageSize area)) bounds entries whole
      (fun out done => out.1 = done.map rowOf) where
  full out done isOut := by
    simp only [rowValueWalker]
    rw [isOut, length_map]
  leaf id low high contents below out done leaf _ span isOut clipped := by
    obtain ⟨bytes, opened, raw, -⟩ := sound.openRaw_leaf room resident leaf
    refine ⟨bytes, (_, some { low, high, bytes }), opened, ?_, rfl⟩
    simp only [rowValueWalker]
    rw [isOut, raw.scanLeafInto_eq sound.wide (long.leaf span) clipped]
    rfl
  internal id leftmost shown shows := sound.openRaw_internal room shows

end

theorem Sound.walked (bounds : WalkBounds) {Leaf Out : Type} {walker : Walker Leaf Out}
    {stands : Out -> List (Bytes × Bytes) -> Prop}
    (faithful : ∀ whole, walker.Faithful tree.pageSize (tree.readPages (Pages.ofArea tree.pageSize
      area)) bounds entries whole stands) (out : Out) (stood : stands out []) :
    ∃ after, walker.walk bounds tree.readDepth tree.readRoot none none out = .ok after ∧
      stands after (bounds.clip (bounds.wanted entries)) := by
  obtain ⟨height, rests, subtree, -, deep⟩ := sound.shallow
  exact (faithful rests).walk_spec subtree subset_rfl (.whole entries) stood WalkBounds.clip_nil deep

theorem Sound.countInRange_eq (resident : Nat -> Bool) (start : Bytes) (stop : Option Bytes) :
    tree.countInRange resident area start stop =
      .ok ((⟨start, stop, none, none⟩ : WalkBounds).wanted entries).length := by
  unfold countInRange
  split
  · rename_i isEmpty
    rw [WalkBounds.wanted_of_stop_le isEmpty]
    rfl
  · obtain ⟨total, walked, isTotal⟩ := sound.walked ⟨start, stop, none, none⟩
      (fun whole => count_faithful resident rfl) 0 rfl
    rw [walked, isTotal]
    rfl

theorem Sound.lastInRange_eq (start : Bytes) (stop : Option Bytes) :
    tree.lastInRange (Pages.ofArea tree.pageSize area) start stop =
      .ok ((⟨start, stop, none, none⟩ : WalkBounds).wanted entries).getLast? := by
  obtain ⟨height, rests, subtree, -, deep⟩ := sound.shallow
  unfold lastInRange
  split
  · rename_i isEmpty
    rw [WalkBounds.wanted_of_stop_le isEmpty]
    rfl
  · exact walkLast_spec sound.wide subtree deep

end

end Reads

/-! ## Cursors -/

section Cursors

variable {area later : Nat -> Bytes} {tree : CowBTree} {entries : List (Bytes × Bytes)}
  {resident : Nat -> Bool} {bounds : WalkBounds} {pageSize next more root id : Nat}
  {low high : Option Bytes}

theorem subtree_unique {pages : Pages} {height other : Nat} {first second : List (Bytes × Bytes)}
    {rests others : Finset Nat} (wide : overflowHeaderSize < pageSize)
    (one : Subtree pageSize pages height id none none first rests)
    (two : Subtree pageSize pages other id none none second others) : first = second := by
  have whole : ∀ entries, WalkBounds.wanted ⟨[], none, none, none⟩ entries = entries := by
    intro entries
    refine filter_eq_self.mpr fun entry _ => ?_
    rw [WalkBounds.admits_iff]
    exact ⟨not_lt.mp (not_lt_nil _), by simp, by simp⟩
  have walked : ∀ tall entries part, Subtree pageSize pages tall id none none entries part ->
      tall < height + other + 1 ->
      walk pageSize pages ⟨[], none, none, none⟩ (height + other + 1) id [] = .ok entries := by
    intro tall entries part subtree deep
    have found : walk pageSize pages ⟨[], none, none, none⟩ (height + other + 1) id [] = _ :=
      walk_spec wide subtree WalkBounds.clip_nil deep
    rw [nil_append, whole] at found
    exact found
  have same := walked height first rests one (by omega)
  rw [walked other second others two (by omega)] at same
  exact (Except.ok.inj same).symm

theorem LeafOf.frame (leafOf : LeafOf pageSize (Pages.ofArea pageSize area) next root id low high)
    (same : ∀ id < next, later id = area id) (le : next ≤ more) :
    LeafOf pageSize (Pages.ofArea pageSize later) more root id low high := by
  obtain ⟨height, all, rests, held, below, subtree, issued, leaf, within, span⟩ := leafOf
  have keeps : (Pages.ofArea pageSize area).Keeps (Pages.ofArea pageSize later) rests := by
    intro id member
    have kept := same id (issued id member)
    refine ⟨?_, fun link isLink => by simpa only [Pages.ofArea, kept] using isLink⟩
    rintro view ⟨node, isNode, rest⟩
    exact ⟨node, by simpa only [Pages.ofArea, kept] using isNode, rest⟩
  obtain ⟨cells, shows, filled, size, fenced, holds⟩ := leaf
  refine ⟨height, all, rests, held, below, subtree.frame keeps,
    fun id member => (issued id member).trans_le le, ⟨cells, ?_, filled, size, fenced, ?_⟩, within,
    span⟩
  · exact (keeps id (within (Finset.mem_insert_self _ _))).1 _ shows
  · exact holds.frame (keeps.mono ((Finset.subset_insert _ _).trans within))

theorem effectiveLower_le {key : Bytes} (admitted : bounds.admits key = true) :
    bounds.effectiveLower ≤ key := by
  rw [WalkBounds.admits_iff] at admitted
  unfold WalkBounds.effectiveLower
  cases isAfter : bounds.after with
  | none => exact admitted.1
  | some after =>
    simp only
    split
    · exact (admitted.2.2 after isAfter).le
    · exact admitted.1

/-- From a leaf that holds the lower bound on, the wanted entries of the leaf come first.
There are no others when the range ends in the leaf. -/
theorem wanted_of_span {all held : List (Bytes × Bytes)} (fenced : Fenced none none all)
    (leaf : Fenced low high held) (span : InSpan all low high held)
    (lower : lowerIsIn low high bounds = true) :
    ∃ rest, bounds.wanted all = bounds.wanted held ++ rest ∧
      (stopIsIn high bounds.stop = true -> rest = []) := by
  simp only [lowerIsIn, Bool.and_eq_true, Bool.not_eq_true', Option.any_eq_false,
    decide_eq_false_iff_not, not_lt] at lower
  have above : ∀ key, bounds.admits key = true -> ∀ bound ∈ low, bound ≤ key :=
    fun key admitted bound isLow => (lower.1 bound isLow).trans (effectiveLower_le admitted)
  let rest := (bounds.wanted all).filter fun entry => high.any (· ≤ entry.1)
  have inRest : ∀ entry, entry ∈ rest ↔
      entry ∈ bounds.wanted all ∧ ∃ bound ∈ high, bound ≤ entry.1 := by
    intro entry
    rw [mem_filter]
    simp [Option.any_eq_true]
  refine ⟨rest, ?_, fun ends => ?_⟩
  · apply eq_of_sorted_of_mem
    · exact fenced.sorted.sublist filter_sublist
    · refine pairwise_append.mpr ⟨leaf.sorted.sublist filter_sublist,
        (fenced.sorted.sublist filter_sublist).sublist filter_sublist, ?_⟩
      intro first inFirst second inSecond
      obtain ⟨-, bound, isHigh, le⟩ := (inRest second).mp inSecond
      exact ((leaf.within first (mem_of_mem_filter inFirst)).2 bound isHigh).trans_le le
    · intro entry
      rw [mem_append, inRest]
      constructor
      · intro wanted
        by_cases past : ∃ bound ∈ high, bound ≤ entry.1
        · exact .inr ⟨wanted, past⟩
        · have ⟨member, admitted⟩ := mem_filter.mp wanted
          refine .inl (mem_filter.mpr ⟨(span entry).mpr ⟨member, above _ admitted, ?_⟩, admitted⟩)
          exact fun bound isHigh => not_le.mp fun le => past ⟨bound, isHigh, le⟩
      · rintro (inHeld | ⟨wanted, -⟩)
        · have ⟨member, admitted⟩ := mem_filter.mp inHeld
          exact mem_filter.mpr ⟨((span entry).mp member).1, admitted⟩
        · exact wanted
  · rw [eq_nil_iff_forall_not_mem]
    intro entry member
    obtain ⟨wanted, bound, isHigh, le⟩ := (inRest entry).mp member
    have admitted := (WalkBounds.admits_iff.mp (mem_filter.mp wanted).2).2.1
    obtain rfl : high = some bound := isHigh
    cases isStop : bounds.stop with
    | none => simp [stopIsIn, isStop] at ends
    | some stop =>
      have inside : stop ≤ bound := by simpa [stopIsIn, isStop] using ends
      exact absurd ((admitted stop isStop).trans_le (inside.trans le)) (lt_irrefl _)

/-- The cursor's leaf is a leaf of the tree under its root. -/
def RangeCursor.Valid (pageSize : Nat) (area : Nat -> Bytes) (next : Nat) (cursor : RangeCursor) :
    Prop :=
  LeafOf pageSize (Pages.ofArea pageSize area) next cursor.root cursor.leaf cursor.low cursor.high

/-- The cursor's bytes are a leaf of the tree under its root. -/
def RawScanCursor.Valid (pageSize : Nat) (area : Nat -> Bytes) (next : Nat)
    (cursor : RawScanCursor) : Prop :=
  ∃ id < next, cursor.bytes = area id ∧
    LeafOf pageSize (Pages.ofArea pageSize area) next cursor.root id cursor.low cursor.high

theorem readPages_idle {committed : Pages} (idle : tree.hasPending = false) :
    tree.readPages committed = committed := by
  rw [readPages, if_neg (by simp [idle])]

theorem readRoot_idle (idle : tree.hasPending = false) : tree.readRoot = tree.root := by
  rw [readRoot, if_neg (by simp [idle])]

theorem readNext_idle (idle : tree.hasPending = false) : tree.readNext = tree.nextPageId := by
  rw [readNext, if_neg (by simp [idle])]

section

variable (sound : Sound (Pages.ofArea tree.pageSize area) tree entries)
    (room : tree.readNext ≤ 2 ^ 64) (idle : tree.hasPending = false)

include sound room idle

theorem Sound.leafOf_raw (resident : Nat -> Bool)
    (leafOf : LeafOf tree.pageSize (Pages.ofArea tree.pageSize area) next tree.root id low high) :
    ∃ held, tree.openRaw resident area id = .ok (.leaf (area id)) ∧
      RawHolds tree.pageSize (Pages.ofArea tree.pageSize area) (area id) held ∧
      Fenced low high held ∧ InSpan entries low high held := by
  obtain ⟨height, all, rests, held, below, subtree, -, leaf, -, span⟩ := leafOf
  obtain ⟨tall, others, own, -⟩ := sound.subtree
  rw [readPages_idle idle, readRoot_idle idle] at own
  obtain rfl := subtree_unique sound.wide subtree own
  have fenced : Fenced low high held := by
    obtain ⟨cells, -, -, -, fenced, -⟩ := leaf
    exact fenced
  have same : tree.readPages (Pages.ofArea tree.pageSize area) = Pages.ofArea tree.pageSize area :=
    readPages_idle idle
  rw [<- same] at leaf
  obtain ⟨bytes, opened, raw, isArea⟩ := sound.openRaw_leaf room resident leaf
  obtain rfl := isArea idle
  rw [readPages_idle idle] at raw
  exact ⟨held, opened, raw, fenced, span⟩

theorem Sound.rowIds_of_cursor (long : RowKeys bounds entries) {cursor : RangeCursor}
    (valid : cursor.Valid tree.pageSize area next) (sameRoot : cursor.root = tree.root)
    (covers : cursor.covers bounds = true) :
    tree.scanRowIdsFromRangeCursor resident area cursor bounds =
      .ok (some ((bounds.clip (bounds.wanted entries)).map fun entry => rowIdOf entry.1)) := by
  rw [RangeCursor.Valid, sameRoot] at valid
  obtain ⟨held, opened, raw, fenced, span⟩ := sound.leafOf_raw room idle resident valid
  rw [RangeCursor.covers, Bool.and_eq_true] at covers
  obtain ⟨rest, isWanted, ends⟩ := wanted_of_span sound.fenced fenced span covers.1
  rw [ends covers.2, append_nil] at isWanted
  have still : { tree with hasPending := false } = tree := by
    cases tree
    cases idle
    rfl
  rw [scanRowIdsFromRangeCursor, still, opened]
  change (scanLeafRowIdsInto tree.pageSize bounds (area cursor.leaf) [] >>= _) = _
  have scanned := raw.scanLeafRowIdsInto_eq (long.leaf span) (WalkBounds.clip_nil)
  rw [nil_append, <- isWanted] at scanned
  change scanLeafRowIdsInto tree.pageSize bounds (area cursor.leaf) [] = _ at scanned
  rw [scanned]
  rfl

/-- A cursor whose leaf holds the lower bound answers a row-value read, or leaves it to
the walk. -/
theorem Sound.rowValues_of_cursor (long : RowKeys bounds entries) {cursor : RawScanCursor}
    (valid : cursor.Valid tree.pageSize area next) (sameRoot : cursor.root = tree.root)
    (lower : cursor.lowerIsInLeaf bounds = true) :
    tree.scanRowValuesFromCursor area cursor bounds = .ok none ∨
      tree.scanRowValuesFromCursor area cursor bounds =
        .ok (some ((bounds.clip (bounds.wanted entries)).map rowOf)) := by
  obtain ⟨id, -, isBytes, valid⟩ := valid
  rw [sameRoot] at valid
  obtain ⟨held, -, raw, fenced, span⟩ := sound.leafOf_raw room idle (fun _ => false) valid
  obtain ⟨rest, isWanted, ends⟩ := wanted_of_span sound.fenced fenced span lower
  have scanned := raw.scanLeafInto_eq sound.wide (long.leaf span) (WalkBounds.clip_nil)
  rw [nil_append] at scanned
  change scanLeafInto tree.pageSize (Pages.ofArea tree.pageSize area) bounds (area id) [] = _
    at scanned
  simp only [scanRowValuesFromCursor]
  rw [isBytes, scanned]
  simp only [bind, Except.bind]
  split
  · rename_i answers
    refine .inr ?_
    have same : bounds.clip (bounds.wanted entries) = bounds.clip (bounds.wanted held) := by
      rw [isWanted]
      rcases answers with isIn | isFull
      · rw [ends isIn, append_nil]
      · rw [length_map] at isFull
        rw [<- bounds.clip_clip, bounds.clip_of_full rest (bounds.clip_idem _) isFull]
    rw [same]
    rfl
  · exact .inl rfl

end

theorem clip_of_nothing
    (nothing : bounds.limit = some 0 ∨ bounds.stop.any (· ≤ bounds.start) = true) :
    bounds.clip (bounds.wanted entries) = [] := by
  rcases nothing with isZero | isEmpty
  · simp [WalkBounds.clip, isZero]
  · rw [WalkBounds.wanted_of_stop_le isEmpty, WalkBounds.clip_nil]

/-- `scan_range_row_ids_from` returns the row ids of the wanted entries, whatever valid
cursor it starts from. -/
theorem Sound.scanRangeRowIdsFrom_eq (sound : Sound (Pages.ofArea tree.pageSize area) tree entries)
    (room : tree.readNext ≤ 2 ^ 64) (long : RowKeys bounds entries) (generation : Option Nat)
    {cursor : Option RangeCursor}
    (valid : ∀ known, cursor = some known -> known.Valid tree.pageSize area next) :
    ∃ left, tree.scanRangeRowIdsFrom resident area cursor generation bounds =
      .ok ((bounds.clip (bounds.wanted entries)).map fun entry => rowIdOf entry.1, left) := by
  unfold scanRangeRowIdsFrom
  split
  · rename_i nothing
    rw [clip_of_nothing nothing]
    exact ⟨cursor, rfl⟩
  · cases usable : cursor.filter fun cursor => decide (cursor.root = tree.readRoot ∧
        (if tree.hasPending then none else generation) = some cursor.generation ∧
          cursor.covers bounds) with
    | none =>
      obtain ⟨⟨ids, candidate⟩, walked, rfl⟩ := sound.walked bounds
        (fun whole => sound.rowId_faithful room long resident) ([], none) rfl
      simp only [usable, answerFrom]
      rw [ok_bind, walked, ok_bind]
      exact ⟨_, rfl⟩
    | some known =>
      obtain ⟨rfl, allowed⟩ := filter_eq_some_iff.mp usable
      obtain ⟨sameRoot, current, covers⟩ := of_decide_eq_true allowed
      have idle : tree.hasPending = false := by
        by_contra pending
        rw [if_pos (by simpa using pending)] at current
        cases current
      rw [readRoot_idle idle] at sameRoot
      simp only [usable, answerFrom]
      rw [sound.rowIds_of_cursor room idle long (valid known rfl) sameRoot covers, ok_bind]
      exact ⟨_, rfl⟩

variable {cursor : Option RawScanCursor} {generation : Option Nat}

section

variable (sound : Sound (Pages.ofArea tree.pageSize area) tree entries)
    (room : tree.readNext ≤ 2 ^ 64)

include sound room

/-- `scan_range_row_values_raw_from` returns the rows of the wanted entries, whatever valid
cursor it starts from. -/
theorem Sound.scanRangeRowValuesRawFrom_eq (long : RowKeys bounds entries) (generation : Option Nat)
    (valid : ∀ known, cursor = some known -> known.Valid tree.pageSize area next) :
    ∃ left, tree.scanRangeRowValuesRawFrom resident area cursor generation bounds =
      .ok ((bounds.clip (bounds.wanted entries)).map rowOf, left) := by
  obtain ⟨⟨rows, candidate⟩, walked, rfl⟩ := sound.walked bounds
    (fun whole => sound.rowValue_faithful room long resident) ([], none) rfl
  unfold scanRangeRowValuesRawFrom
  split
  · rename_i nothing
    rw [clip_of_nothing nothing]
    exact ⟨cursor, rfl⟩
  · cases usable : cursor.filter fun cursor => decide (cursor.root = tree.readRoot ∧
        (if tree.hasPending then none else generation) = some cursor.generation ∧
          cursor.lowerIsInLeaf bounds) with
    | none =>
      simp only [usable, answerFrom]
      rw [ok_bind, walked, ok_bind]
      exact ⟨_, rfl⟩
    | some known =>
      obtain ⟨rfl, allowed⟩ := filter_eq_some_iff.mp usable
      obtain ⟨sameRoot, current, lower⟩ := of_decide_eq_true allowed
      have idle : tree.hasPending = false := by
        by_contra pending
        rw [if_pos (by simpa using pending)] at current
        cases current
      rw [readRoot_idle idle] at sameRoot
      simp only [usable, answerFrom]
      rcases sound.rowValues_of_cursor room idle long (valid known rfl) sameRoot lower with
        passed | answered
      · rw [passed, ok_bind]
        rw [walked, ok_bind]
        exact ⟨_, rfl⟩
      · rw [answered, ok_bind]
        exact ⟨_, rfl⟩

theorem Sound.walk_leafOf {Out : Type} {walker : Walker Bytes Out} (keeps : Out -> Prop)
    (fetches : walker.fetch = tree.openRaw resident area)
    (leaf : ∀ id low high bytes out after, id < tree.readNext -> (tree.hasPending = false -> bytes =
      area id) -> LeafOf tree.pageSize (tree.readPages (Pages.ofArea tree.pageSize area))
      tree.readNext tree.readRoot id low high -> walker.scan id low high bytes out = .ok after ->
      keeps after) {out after : Out} (kept : keeps out)
    (done : walker.walk bounds tree.readDepth tree.readRoot none none out = .ok after) :
    keeps after := by
  obtain ⟨height, rests, subtree, issued⟩ := sound.subtree
  refine Walker.walk_keeps (fun id low high contents below bytes out after holds within span _
      opened scanned => ?_) (fun id low high contents below holds => ?_)
    (fun id leftmost shown shows => ?_) subtree subset_rfl (.whole entries) kept done
  · obtain ⟨sameBytes, openedRaw, -, isArea⟩ := sound.openRaw_leaf room resident holds
    rw [fetches, openedRaw] at opened
    cases opened
    exact leaf id low high _ out after (issued id (within (Finset.mem_insert_self _ _))) isArea
      ⟨height, entries, rests, contents, below, subtree, issued, holds, within, span⟩ scanned
  · obtain ⟨bytes, opened, -⟩ := sound.openRaw_leaf room resident holds
    exact ⟨bytes, by rw [fetches]; exact opened⟩
  · rw [fetches]
    exact sound.openRaw_internal room shows

theorem Sound.rowIds_cursor {cursor left : Option RangeCursor}
    (valid : ∀ known, cursor = some known -> known.Valid tree.pageSize area tree.nextPageId)
    {ids : List Nat}
    (done : tree.scanRangeRowIdsFrom resident area cursor generation bounds = .ok (ids, left)) :
    ∀ known, left = some known -> known.Valid tree.pageSize area tree.nextPageId := by
  unfold scanRangeRowIdsFrom at done
  split at done
  · cases done
    exact valid
  · obtain ⟨answered, -, rest⟩ := bind_eq_ok done
    cases answered with
    | some found =>
      cases rest
      exact valid
    | none =>
      obtain ⟨⟨found, candidate⟩, walked, result⟩ := bind_eq_ok rest
      cases result
      intro known isKnown
      rcases or_eq_some_iff.mp isKnown with retained | ⟨-, kept⟩
      · obtain ⟨current, isCurrent, mapped⟩ := bind_eq_some_iff.mp retained
        obtain ⟨leaf, isLeaf, rfl⟩ := map_eq_some_iff.mp mapped
        have idle : tree.hasPending = false := by
          by_contra pending
          rw [if_pos (by simpa using pending)] at isCurrent
          cases isCurrent
        have leafOf := sound.walk_leafOf room (fun out => ∀ leaf, out.2 = some leaf ->
          LeafOf tree.pageSize (tree.readPages (Pages.ofArea tree.pageSize area)) tree.readNext
            tree.readRoot leaf.leaf leaf.low leaf.high) rfl
          (by
            rintro id low high bytes out after - - leafOf scanned leaf isLeaf
            obtain ⟨ids, -, result⟩ := bind_eq_ok scanned
            cases result
            cases isLeaf
            exact leafOf) (by simp) walked leaf isLeaf
        rw [readPages_idle idle, readNext_idle idle] at leafOf
        exact leafOf
      · exact valid known kept

theorem Sound.rowValues_cursor {left : Option RawScanCursor}
    (valid : ∀ known, cursor = some known -> known.Valid tree.pageSize area tree.nextPageId)
    {rows : List (Nat × Bytes)}
    (done : tree.scanRangeRowValuesRawFrom resident area cursor generation bounds = .ok (rows,
      left)) :
    ∀ known, left = some known -> known.Valid tree.pageSize area tree.nextPageId := by
  unfold scanRangeRowValuesRawFrom at done
  split at done
  · cases done
    exact valid
  · obtain ⟨answered, -, rest⟩ := bind_eq_ok done
    cases answered with
    | some found =>
      cases rest
      exact valid
    | none =>
      obtain ⟨⟨found, candidate⟩, walked, result⟩ := bind_eq_ok rest
      cases result
      intro known isKnown
      rcases or_eq_some_iff.mp isKnown with retained | ⟨-, kept⟩
      · obtain ⟨current, isCurrent, mapped⟩ := bind_eq_some_iff.mp retained
        obtain ⟨leaf, isLeaf, rfl⟩ := map_eq_some_iff.mp mapped
        have idle : tree.hasPending = false := by
          by_contra pending
          rw [if_pos (by simpa using pending)] at isCurrent
          cases isCurrent
        obtain ⟨id, below, isBytes, leafOf⟩ := sound.walk_leafOf room
          (fun out => ∀ leaf, out.2 = some leaf -> ∃ id < tree.readNext, leaf.bytes = area id ∧
            LeafOf tree.pageSize (tree.readPages (Pages.ofArea tree.pageSize area))
              tree.readNext tree.readRoot id leaf.low leaf.high) rfl
          (by
            rintro id low high bytes out after below isBytes leafOf scanned leaf isLeaf
            obtain ⟨rows, -, result⟩ := bind_eq_ok scanned
            cases result
            cases isLeaf
            exact ⟨id, below, isBytes idle, leafOf⟩) (by simp) walked leaf isLeaf
        rw [readPages_idle idle, readNext_idle idle] at leafOf
        rw [readNext_idle idle] at below
        exact ⟨id, below, isBytes, leafOf⟩
      · exact valid known kept

end

end Cursors

end CowBTree

/-! ## One tree and its readers -/

/-- A device with one tree on it, and the tree's two cursors. -/
structure Reader where
  shared : Shared
  tree : CowBTree
  rangeCursor : Option CowBTree.RangeCursor
  rowScanCursor : Option CowBTree.RawScanCursor

/-- The calls on the tree: its writes, and the two reads that move a cursor. A read finds
some pages in the cache and the device at some generation. -/
inductive ReaderCall where
  | put (key value : Bytes)
  | delete (key : Bytes)
  | materialize
  | rollback
  | commit
  | rowIds (bounds : CowBTree.WalkBounds) (resident : Nat -> Bool) (generation : Option Nat)
  | rowValues (bounds : CowBTree.WalkBounds) (resident : Nat -> Bool) (generation : Option Nat)

namespace Reader

def pages (reader : Reader) : Pages := Pages.ofArea reader.tree.pageSize reader.shared.area

def get (reader : Reader) (key : Bytes) : Except Error (Option Bytes) :=
  reader.tree.get reader.pages key

def scanRangeFrom (reader : Reader) (bounds : CowBTree.WalkBounds) :
    Except Error (List (Bytes × Bytes)) :=
  reader.tree.scanRangeFrom reader.pages bounds

def lastInRange (reader : Reader) (start : Bytes) (stop : Option Bytes) :
    Except Error (Option (Bytes × Bytes)) :=
  reader.tree.lastInRange reader.pages start stop

def countInRange (reader : Reader) (resident : Nat -> Bool) (start : Bytes) (stop : Option Bytes) :
    Except Error Nat :=
  reader.tree.countInRange resident reader.shared.area start stop

/-- `scan_range_row_ids_from`, with the cursor it leaves. -/
def scanRangeRowIdsFrom (reader : Reader) (resident : Nat -> Bool) (generation : Option Nat)
    (bounds : CowBTree.WalkBounds) : Except Error (List Nat × Option CowBTree.RangeCursor) :=
  reader.tree.scanRangeRowIdsFrom resident reader.shared.area reader.rangeCursor generation bounds

/-- `scan_range_row_values_raw_from`, with the cursor it leaves. -/
def scanRangeRowValuesRawFrom (reader : Reader) (resident : Nat -> Bool) (generation : Option Nat)
    (bounds : CowBTree.WalkBounds) :
    Except Error (List (Nat × Bytes) × Option CowBTree.RawScanCursor) :=
  reader.tree.scanRangeRowValuesRawFrom resident reader.shared.area reader.rowScanCursor generation
    bounds

/-- One call. A write that fails and a commit that fails are none. -/
def Step (pageSize formatVersion : Nat) (reader : Reader) : ReaderCall -> Reader -> Prop
  | .put key value, after => value.length ≤ maxRecordLen pageSize ∧
      ∃ tree, reader.tree.put reader.pages key value = .ok tree ∧ tree.readNext ≤ 2 ^ 64 ∧
        after = { reader with tree }
  | .delete key, after => ∃ tree, reader.tree.delete reader.pages key = .ok tree ∧
      tree.readNext ≤ 2 ^ 64 ∧ after = { reader with tree }
  | .materialize, after => reader.tree.hasPending = true ∧
      ∃ tree, reader.tree.materializeDirty = .ok tree ∧ after = { reader with tree }
  | .rollback, after => after = { reader with tree := reader.tree.rollback }
  | .commit, after => ∃ outcome tree shared,
      reader.shared.commit formatVersion reader.tree = (outcome, tree, shared) ∧
        (∀ error, outcome ≠ .failed error) ∧ shared.next ≤ 2 ^ 64 ∧
        after = { reader with tree, shared }
  | .rowIds bounds resident generation, after => ∃ ids rangeCursor,
      reader.scanRangeRowIdsFrom resident generation bounds = .ok (ids, rangeCursor) ∧
        after = { reader with rangeCursor }
  | .rowValues bounds resident generation, after => ∃ rows rowScanCursor,
      reader.scanRangeRowValuesRawFrom resident generation bounds = .ok (rows, rowScanCursor) ∧
        after = { reader with rowScanCursor }

end Reader

/-- Any calls on one tree, from a formatted device on. -/
def readers (pageSize formatVersion : Nat) : System Reader ReaderCall where
  Initial reader := reader = ⟨.empty, .empty pageSize, none, none⟩
  Step := Reader.Step pageSize formatVersion

namespace Reader

/-- What holds between two calls: the tree is well formed, its committed root is the
device's, and both cursors stand on leaves of committed trees. -/
structure Good (pageSize : Nat) (reader : Reader) : Prop where
  size : reader.tree.pageSize = pageSize
  positive : 0 < reader.shared.next
  bounded : reader.shared.next ≤ 2 ^ 64
  room : reader.tree.readNext ≤ 2 ^ 64
  root : reader.tree.root = reader.shared.root
  next : reader.tree.nextPageId = reader.shared.next
  opsFit : CowBTree.OpsFit pageSize reader.tree.pendingOps
  current : ∃ contents, Roots pageSize (Pages.ofArea pageSize reader.shared.area)
    reader.shared.next reader.shared.root contents
  sound : ∃ entries, reader.tree.Sound reader.pages entries
  rangeCursor : ∀ known, reader.rangeCursor = some known ->
    known.Valid pageSize reader.shared.area reader.shared.next
  rowScanCursor : ∀ known, reader.rowScanCursor = some known ->
    known.Valid pageSize reader.shared.area reader.shared.next

variable {contents : Bytes -> Option Bytes}

theorem sound_of_roots {pageSize : Nat} {area : Nat -> Bytes} {tree : CowBTree}
    (small : 128 ≤ pageSize) (large : pageSize < 2 ^ 16) (size : tree.pageSize = pageSize)
    (idle : tree.hasPending = false) (clean : tree.dirty = ∅) (positive : 0 < tree.nextPageId)
    (roots : Roots pageSize (Pages.ofArea pageSize area) tree.nextPageId tree.root contents) :
    ∃ entries, tree.Sound (Pages.ofArea tree.pageSize area) entries := by
  subst size
  obtain ⟨height, entries, rests, subtree, issued, -⟩ := roots
  refine ⟨entries, small, large, fun _ id => ?_, ⟨?_, ?_, ?_⟩, ?_, height, rests, ?_, ?_⟩
  · simp [clean]
  · simp [clean]
  · simp [clean]
  · simp [clean]
  · rw [CowBTree.readNext_idle idle]
    exact positive
  · rw [CowBTree.readPages_idle idle, CowBTree.readRoot_idle idle]
    exact subtree
  · rw [CowBTree.readNext_idle idle]
    exact issued

variable {pageSize formatVersion : Nat} {reader after : Reader}

theorem Good.anchored (good : Good pageSize reader) :
    reader.tree.Anchored pageSize (Pages.ofArea pageSize reader.shared.area) reader.shared.next := by
  obtain ⟨contents, roots⟩ := good.current
  exact ⟨good.size, ⟨contents, good.root ▸ roots⟩, good.next.le, good.opsFit⟩

theorem Good.wrote (good : Good pageSize reader) {key : Bytes} {op : Option Bytes} {tree : CowBTree}
    (wrote : CowBTree.Wrote reader.tree tree key op) (fits : CowBTree.OpFits pageSize (key, op))
    (room : tree.readNext ≤ 2 ^ 64)
    (sound : ∃ entries, tree.Sound (Pages.ofArea tree.pageSize reader.shared.area) entries) :
    Good pageSize { reader with tree } where
  size := wrote.pageSize.trans good.size
  positive := good.positive
  bounded := good.bounded
  room := room
  root := wrote.root.trans good.root
  next := wrote.nextPageId.trans good.next
  opsFit := by
    simp only [wrote.pendingOps]
    exact good.opsFit.insert fits
  current := good.current
  sound := sound
  rangeCursor := good.rangeCursor
  rowScanCursor := good.rowScanCursor

section

variable (good : Good pageSize reader) (small : 128 ≤ pageSize) (large : pageSize < 2 ^ 16)

include good small large

theorem Good.rested {tree : CowBTree} {shared : Shared} (size : tree.pageSize = pageSize)
    (idle : tree.hasPending = false) (clean : tree.dirty = ∅) (ops : tree.pendingOps = ∅)
    (root : tree.root = shared.root) (next : tree.nextPageId = shared.next)
    (onward : reader.shared.next ≤ shared.next) (room : shared.next ≤ 2 ^ 64)
    (same : ∀ id < reader.shared.next, shared.area id = reader.shared.area id)
    (roots : Roots pageSize (Pages.ofArea pageSize shared.area) shared.next shared.root contents) :
    Good pageSize { reader with tree, shared } where
  size := size
  positive := good.positive.trans_le onward
  bounded := room
  room := by
    simp only [CowBTree.readNext_idle idle, next]
    exact room
  root := root
  next := next
  opsFit := by
    simp only [ops]
    exact .empty _
  current := ⟨contents, roots⟩
  sound := sound_of_roots small large size idle clean
    (next ▸ good.positive.trans_le onward) (next ▸ root ▸ roots)
  rangeCursor known isKnown := (good.rangeCursor known isKnown).frame same onward
  rowScanCursor known isKnown := by
    obtain ⟨id, below, isBytes, leafOf⟩ := good.rowScanCursor known isKnown
    exact ⟨id, below.trans_le onward, isBytes.trans (same id below).symm, leafOf.frame same onward⟩

theorem Good.commit {outcome : CommitOutcome} {tree : CowBTree} {shared : Shared}
    (done : reader.shared.commit formatVersion reader.tree = (outcome, tree, shared))
    (notFailed : ∀ error, outcome ≠ .failed error) (room : shared.next ≤ 2 ^ 64) :
    Good pageSize { reader with tree, shared } := by
  by_cases pending : reader.tree.hasPending = true
  · obtain ⟨contents, roots⟩ := good.current
    rcases Shared.commit_cases small large good.positive roots good.anchored pending done room with
      ⟨error, isFailed, -⟩ | ⟨-, rfl, rfl, -⟩ | ⟨isCommitted, onward, same, newRoots, -, -⟩
    · exact absurd isFailed (notFailed error)
    · have next : max reader.shared.next reader.tree.nextPageId = reader.shared.next := by
        rw [good.next, max_self]
      exact good.rested small large good.size rfl rfl rfl rfl next le_rfl room (fun _ _ => rfl) roots
    · rw [Shared.commit, if_pos pending] at done
      split at done
      · cases done
        cases isCommitted
      · cases done
        cases isCommitted
      · rename_i ready record prepared
        cases done
        obtain ⟨rebased, isRebased, encoded, rfl, -⟩ := CowBTree.prepareCommit_eq_some.mp prepared
        obtain ⟨size, -, -⟩ := CowBTree.materializeDirty_frame encoded
        obtain ⟨rebasedSize, -, -⟩ := CowBTree.rebasePending_frame good.next.le isRebased
        exact good.rested small large ((size.trans rebasedSize).trans good.size) rfl rfl rfl rfl rfl
          onward room same newRoots
  · rw [Shared.commit, if_neg pending] at done
    cases done
    exact good

theorem Good.step {call : ReaderCall} (step : reader.Step pageSize formatVersion call after) :
    Good pageSize after := by
  obtain ⟨entries, sound⟩ := good.sound
  have size := good.size
  cases call with
  | put key value =>
    obtain ⟨short, tree, isTree, room, rfl⟩ := step
    have fits := CowBTree.put_fits isTree
    have wrote := CowBTree.put_wrote isTree
    obtain ⟨same, isSame, -, placed⟩ := sound.put_eq fits (size ▸ short)
    rw [isTree] at isSame
    cases isSame
    obtain ⟨contents, stillSound, -⟩ := placed room
    refine good.wrote wrote (fun _ isValue => ?_) room ⟨contents, ?_⟩
    · cases isValue
      exact ⟨size ▸ fits, short⟩
    · rw [wrote.pageSize]
      exact stillSound
  | delete key =>
    obtain ⟨tree, isTree, room, rfl⟩ := step
    have wrote := CowBTree.delete_wrote isTree
    obtain ⟨same, isSame, -, contents, stillSound, -⟩ := sound.delete_eq key
    rw [isTree] at isSame
    cases isSame
    refine good.wrote wrote (fun _ isValue => by cases isValue) room ⟨contents, ?_⟩
    rw [wrote.pageSize]
    exact stillSound
  | materialize =>
    obtain ⟨pending, tree, isTree, rfl⟩ := step
    have room := good.room
    rw [CowBTree.readNext, if_pos pending] at room
    obtain ⟨same, isSame, only, -, stillSound⟩ := sound.materialize pending room
    rw [isTree] at isSame
    cases isSame
    have sameSize : tree.pageSize = reader.tree.pageSize := by rw [only]
    refine ⟨sameSize.trans size, good.positive, good.bounded, ?_, ?_, ?_, ?_, good.current, ⟨entries, ?_⟩,
      good.rangeCursor, good.rowScanCursor⟩
    · have next : tree.readNext = reader.tree.readNext := by
        rw [CowBTree.readNext, CowBTree.readNext, only]
      exact next.trans_le good.room
    · rw [only]
      exact good.root
    · rw [only]
      exact good.next
    · rw [only]
      exact good.opsFit
    · simp only [pages, sameSize]
      exact stillSound
  | rollback =>
    obtain rfl : after = _ := step
    obtain ⟨contents, roots⟩ := good.current
    exact good.rested small large good.size rfl rfl rfl good.root good.next le_rfl good.bounded
      (fun _ _ => rfl) roots
  | commit =>
    obtain ⟨outcome, tree, shared, done, notFailed, room, rfl⟩ := step
    exact good.commit small large done notFailed room
  | rowIds bounds resident generation =>
    obtain ⟨ids, rangeCursor, done, rfl⟩ := step
    subst size
    refine { good with rangeCursor := ?_ }
    have valid := good.rangeCursor
    rw [<- good.next] at valid ⊢
    exact sound.rowIds_cursor good.room valid done
  | rowValues bounds resident generation =>
    obtain ⟨rows, rowScanCursor, done, rfl⟩ := step
    subst size
    refine { good with rowScanCursor := ?_ }
    have valid := good.rowScanCursor
    rw [<- good.next] at valid ⊢
    exact sound.rowValues_cursor good.room valid done

end

theorem good_of_runs (small : 128 ≤ pageSize) (large : pageSize < 2 ^ 16) {calls : List ReaderCall}
    (run : (readers pageSize formatVersion).Runs calls reader) : Good pageSize reader := by
  refine System.Runs.invariant (fun _ reader => Good pageSize reader) ?_ ?_ run
  · rintro reader rfl
    have roots : Roots pageSize (Pages.ofArea pageSize Shared.empty.area) Shared.empty.next
      Shared.empty.root (fun _ => none) := .empty _ _ _
    have room : 1 ≤ 2 ^ 64 := Nat.one_le_two_pow
    exact ⟨rfl, Nat.one_pos, room, room, rfl, rfl, .empty _, ⟨_, roots⟩,
      sound_of_roots small large rfl rfl rfl Nat.one_pos roots, nofun, nofun⟩
  · intro calls reader call after good step
    exact good.step small large step

/-! ## Batches -/

/-- The range read batch by batch, each from the last key of the one before. -/
def scanBatches (reader : Reader) (start : Bytes) (stop : Option Bytes) :
    Option Bytes -> List Nat -> Except Error (List (Bytes × Bytes))
  | _, [] => .ok []
  | after, size :: sizes => do
      let batch <- reader.scanRangeFrom ⟨start, stop, after, some size⟩
      let rest <- reader.scanBatches start stop ((batch.getLast?.map Prod.fst).or after) sizes
      return batch ++ rest

end Reader

/-- The entries with keys in `[start, stop)` and past `after`. -/
def inRange (entries : List (Bytes × Bytes)) (start : Bytes) (stop after : Option Bytes) :
    List (Bytes × Bytes) :=
  entries.filter fun entry => decide (start ≤ entry.1 ∧ (∀ bound ∈ stop, entry.1 < bound) ∧
    ∀ bound ∈ after, bound < entry.1)

section Batches

variable {entries : List (Bytes × Bytes)} {start : Bytes} {stop after : Option Bytes}

theorem mem_inRange {entry : Bytes × Bytes} : entry ∈ inRange entries start stop after ↔
    entry ∈ entries ∧ start ≤ entry.1 ∧ (∀ bound ∈ stop, entry.1 < bound) ∧
      ∀ bound ∈ after, bound < entry.1 := by
  rw [inRange, mem_filter, decide_eq_true_iff]

theorem wanted_eq_inRange (limit : Option Nat) :
    (CowBTree.WalkBounds.mk start stop after limit).wanted entries =
      inRange entries start stop after := by
  refine filter_congr fun entry _ => ?_
  rw [Bool.eq_iff_iff, CowBTree.WalkBounds.admits_iff, decide_eq_true_iff]

theorem inRange_past {size : Nat} {last : Bytes × Bytes}
    (sorted : entries.Pairwise fun first second => first.1 < second.1)
    (isLast : ((inRange entries start stop after).take size).getLast? = some last) :
    inRange entries start stop (some last.1) = (inRange entries start stop after).drop size := by
  have inOrder : ∀ after, (inRange entries start stop after).Pairwise
      fun first second => first.1 < second.1 := fun after => sorted.sublist filter_sublist
  have split := inOrder after
  rw [<- take_append_drop size (inRange entries start stop after), pairwise_append] at split
  obtain ⟨frontSorted, -, apart⟩ := split
  obtain ⟨front, isFront⟩ := getLast?_eq_some_iff.mp isLast
  have inFront : last ∈ (inRange entries start stop after).take size := by
    rw [isFront]
    simp
  have isIn := mem_inRange.mp (mem_of_mem_take inFront)
  apply eq_of_sorted_of_mem (inOrder _) ((inOrder after).sublist (drop_sublist _ _))
  intro entry
  constructor
  · intro member
    obtain ⟨isEntry, low, high, past⟩ := mem_inRange.mp member
    have less := past last.1 rfl
    have found : entry ∈ inRange entries start stop after := mem_inRange.mpr
      ⟨isEntry, low, high, fun bound isAfter => (isIn.2.2.2 bound isAfter).trans less⟩
    rw [<- take_append_drop size (inRange entries start stop after), mem_append] at found
    rcases found with inTake | inDrop
    · rw [isFront] at inTake frontSorted
      rcases mem_append.mp inTake with earlier | isThis
      · have before := (pairwise_append.mp frontSorted).2.2 entry earlier last (by simp)
        exact absurd (before.trans less) (lt_irrefl _)
      · obtain rfl : entry = last := by simpa using isThis
        exact absurd less (lt_irrefl _)
    · exact inDrop
  · intro member
    obtain ⟨isEntry, low, high, -⟩ := mem_inRange.mp (mem_of_mem_drop member)
    refine mem_inRange.mpr ⟨isEntry, low, high, ?_⟩
    rintro _ ⟨⟩
    exact apart last inFront entry member

theorem scanBatches_eq {reader : Reader}
    (sorted : entries.Pairwise fun first second => first.1 < second.1)
    (reads : ∀ after size, reader.scanRangeFrom ⟨start, stop, after, some size⟩ =
      .ok ((inRange entries start stop after).take size)) (sizes : List Nat) :
    reader.scanBatches start stop after sizes =
      .ok ((inRange entries start stop after).take sizes.sum) := by
  induction sizes generalizing after with
  | nil => simp [Reader.scanBatches]
  | cons size sizes ih =>
    rw [Reader.scanBatches, reads, ok_bind, ih, ok_bind, sum_cons, take_add]
    cases isLast : ((inRange entries start stop after).take size).getLast? with
    | none =>
      have isEmpty := getLast?_eq_none_iff.mp isLast
      have same : (inRange entries start stop after).drop size =
          inRange entries start stop after := by
        rcases take_eq_nil_iff.mp isEmpty with isZero | isNil
        · rw [isZero, drop_zero]
        · rw [isNil, drop_nil]
      rw [same]
      rfl
    | some last =>
      simp only [map_some, some_or]
      rw [inRange_past sorted isLast]
      rfl

end Batches

/-- **Range reads.** After any run of calls on a tree, with or without an open transaction,
every range read answers from the entries the tree holds: the scan takes the first of them,
the count and the last entry are theirs, the raw walks return their row ids and values,
whatever is cached and wherever the cursors stand, and batches add up to the range. -/
theorem range_reads_agree {pageSize formatVersion : Nat} (small : 128 ≤ pageSize)
    (large : pageSize ≤ 65535) {calls : List ReaderCall} {reader : Reader}
    (run : (readers pageSize formatVersion).Runs calls reader) :
    ∃ entries : List (Bytes × Bytes), entries.Pairwise (fun first second => first.1 < second.1) ∧
      (∀ key value, (key, value) ∈ entries ↔ reader.get key = .ok (some value)) ∧
      ∀ start stop, (∀ after limit, reader.scanRangeFrom ⟨start, stop, after, limit⟩ =
          .ok (limit.elim (inRange entries start stop after)
            (inRange entries start stop after).take)) ∧
        (∀ resident, reader.countInRange resident start stop =
          .ok (inRange entries start stop none).length) ∧
        reader.lastInRange start stop = .ok (inRange entries start stop none).getLast? ∧
        (∀ after limit resident generation,
          (∀ entry ∈ inRange entries start stop after, 8 ≤ entry.1.length) ->
          (∃ left, reader.scanRangeRowIdsFrom resident generation ⟨start, stop, after, limit⟩ =
            .ok ((limit.elim (inRange entries start stop after)
              (inRange entries start stop after).take).map fun entry =>
                ofBe (entry.1.drop (entry.1.length - 8)), left)) ∧
          ∃ left, reader.scanRangeRowValuesRawFrom resident generation ⟨start, stop, after, limit⟩ =
            .ok ((limit.elim (inRange entries start stop after)
              (inRange entries start stop after).take).map fun entry =>
                (ofBe (entry.1.drop (entry.1.length - 8)), entry.2), left)) ∧
        (∀ sizes, reader.scanBatches start stop none sizes =
          .ok ((inRange entries start stop none).take sizes.sum)) ∧
        ∀ sizes, (∀ size ∈ sizes, 0 < size) ->
          (inRange entries start stop none).length ≤ sizes.length ->
          reader.scanBatches start stop none sizes = .ok (inRange entries start stop none) := by
  have good := Reader.good_of_runs small (by omega) run
  obtain rfl := good.size
  obtain ⟨entries, sound⟩ := good.sound
  have clips : ∀ start stop after limit,
      (CowBTree.WalkBounds.mk start stop after limit).clip ((CowBTree.WalkBounds.mk start stop after
        limit).wanted entries) = limit.elim (inRange entries start stop after)
          (inRange entries start stop after).take := by
    intro start stop after limit
    rw [wanted_eq_inRange]
    cases limit <;> rfl
  have scans : ∀ start stop after limit, reader.scanRangeFrom ⟨start, stop, after, limit⟩ =
      .ok (limit.elim (inRange entries start stop after)
        (inRange entries start stop after).take) := by
    intro start stop after limit
    rw [<- clips]
    exact sound.scanRangeFrom_eq _
  have batches : ∀ start stop sizes, reader.scanBatches start stop none sizes =
      .ok ((inRange entries start stop none).take sizes.sum) := fun start stop sizes =>
    scanBatches_eq sound.fenced.sorted (fun after size => scans start stop after (some size)) sizes
  refine ⟨entries, sound.fenced.sorted, fun key value => ?_, fun start stop =>
    ⟨scans start stop, fun resident => ?_, ?_, fun after limit resident generation long => ?_,
      batches start stop, fun sizes positive enough => ?_⟩⟩
  · obtain ⟨result, isResult, answers⟩ := sound.get_eq key
    have isGet : reader.get key = .ok result := isResult
    rw [isGet, <- answers value, Except.ok.injEq]
  · rw [<- wanted_eq_inRange none]
    exact sound.countInRange_eq resident start stop
  · rw [<- wanted_eq_inRange none]
    exact sound.lastInRange_eq start stop
  · have rowKeys : CowBTree.RowKeys ⟨start, stop, after, limit⟩ entries := by
      intro entry member
      rw [wanted_eq_inRange] at member
      exact long entry member
    rw [<- clips]
    exact ⟨sound.scanRangeRowIdsFrom_eq good.room rowKeys generation good.rangeCursor,
      sound.scanRangeRowValuesRawFrom_eq good.room rowKeys generation good.rowScanCursor⟩
  · have atLeast : sizes.length ≤ sizes.sum := length_le_sum_of_one_le sizes positive
    rw [batches, take_of_length_le (enough.trans atLeast)]

/-- The reader some puts leave, as long as each succeeds and its page ids are `u64`s. -/
def Reader.puts (reader : Reader) : List (Bytes × Bytes) -> Option Reader
  | [] => some reader
  | (key, value) :: rows =>
    match reader.tree.put reader.pages key value with
    | .ok tree => if tree.readNext ≤ 2 ^ 64 then Reader.puts { reader with tree } rows else none
    | .error _ => none

theorem runs_puts {pageSize formatVersion : Nat} {before : List ReaderCall} {reader after : Reader}
    {rows : List (Bytes × Bytes)} (run : (readers pageSize formatVersion).Runs before reader)
    (short : ∀ row ∈ rows, row.2.length ≤ maxRecordLen pageSize)
    (isAfter : reader.puts rows = some after) : (readers pageSize formatVersion).Runs
      (before ++ rows.map fun row => .put row.1 row.2) after := by
  induction rows generalizing before reader with
  | nil =>
    cases isAfter
    simpa using run
  | cons row rows ih =>
    obtain ⟨start, initial, steps⟩ := run
    unfold Reader.puts at isAfter
    split at isAfter
    · rename_i tree isTree
      split at isAfter
      · rename_i room
        have step : (readers pageSize formatVersion).Step reader (.put row.1 row.2)
            { reader with tree } := ⟨short row mem_cons_self, tree, isTree, room, rfl⟩
        simpa using ih ⟨start, initial, steps.step step⟩ (fun _ later => short _ (.tail _ later))
          isAfter
      · cases isAfter
    · cases isAfter

/-- Three rows put out of order are scanned in order, up to a limit, and read as row ids. -/
theorem three_rows_read : ∃ reader, (readers 128 6).Runs [.put [0, 0, 0, 0, 0, 0, 0, 9] [4],
      .put [0, 0, 0, 0, 0, 0, 0, 7] [2], .put [0, 0, 0, 0, 0, 0, 1, 0] [3]] reader ∧
      reader.scanRangeFrom ⟨[], none, none, some 2⟩ =
        .ok [([0, 0, 0, 0, 0, 0, 0, 7], [2]), ([0, 0, 0, 0, 0, 0, 0, 9], [4])] ∧
      ∃ left, reader.scanRangeRowIdsFrom (fun _ => true) (some 0) ⟨[], none, none, some 3⟩ =
        .ok ([7, 9, 256], left) := by
  let rows : List (Bytes × Bytes) := [([0, 0, 0, 0, 0, 0, 0, 9], [4]),
    ([0, 0, 0, 0, 0, 0, 0, 7], [2]), ([0, 0, 0, 0, 0, 0, 1, 0], [3])]
  let start : Reader := ⟨.empty, .empty 128, none, none⟩
  have scanned : (start.puts rows).map (fun reader =>
      (reader.scanRangeFrom ⟨[], none, none, none⟩).toOption) =
        some (some [([0, 0, 0, 0, 0, 0, 0, 7], [2]), ([0, 0, 0, 0, 0, 0, 0, 9], [4]),
          ([0, 0, 0, 0, 0, 0, 1, 0], [3])]) := by
    decide +kernel
  obtain ⟨reader, isReader, found⟩ := Option.map_eq_some_iff.mp scanned
  have run : (readers 128 6).Runs _ reader := runs_puts ⟨start, rfl, .refl⟩ (by decide) isReader
  obtain ⟨entries, -, -, reads⟩ := range_reads_agree (by decide) (by decide) run
  obtain ⟨scans, -, -, ids, -⟩ := reads [] none
  have all := scans none none
  rw [Option.elim_none] at all
  rw [all] at found
  have isRange := Option.some.inj found
  obtain ⟨⟨left, isIds⟩, -⟩ := ids none (some 3) (fun _ => true) (some 0) (by rw [isRange]; decide)
  refine ⟨reader, run, ?_, left, ?_⟩
  · rw [scans none (some 2), isRange]
    rfl
  · rw [isIds, isRange]
    rfl

/-- A value longer than a log region is counted, and every scan over it fails. -/
theorem long_value_counted_not_scanned : ∃ tree,
    (CowBTree.empty 128).put (Pages.ofArea 128 Shared.empty.area) [0, 0, 0, 0, 0, 0, 0, 7]
        (List.replicate 32769 0) = .ok tree ∧
      (∃ message, (Reader.mk .empty tree none none).scanRangeFrom ⟨[], none, none, none⟩ =
        .error (.corrupt message)) ∧
      (Reader.mk .empty tree none none).countInRange (fun _ => false) [] none = .ok 1 := by
  have long : maxRecordLen 128 < (List.replicate 32769 (0 : UInt8)).length := by
    rw [length_replicate]
    decide
  have fits : CowBTree.keyFits 128 [0, 0, 0, 0, 0, 0, 0, 7] = true := by decide
  obtain ⟨tree, first, put, size, pending, valid, found⟩ :=
    long_value_stored (Pages.ofArea 128 Shared.empty.area) fits long
  generalize (List.replicate 32769 (0 : UInt8)).length = length at long found
  have shown : ∀ committed, tree.nodeAt committed tree.pendingRoot =
      .ok (.leaf [] [⟨.owned [0, 0, 0, 0, 0, 0, 0, 7], .overflow first length⟩]) := by
    intro committed
    rw [CowBTree.nodeAt, found]
  have admitted : (CowBTree.WalkBounds.mk [] none none none).admits [0, 0, 0, 0, 0, 0, 0, 7] =
      true := by decide
  refine ⟨tree, put, ⟨s!"overflow value length {length} exceeds the write-ahead log capacity {maxRecordLen 128}", ?_⟩, ?_⟩
  · simp only [Reader.scanRangeFrom, CowBTree.scanRangeFrom, any_none, Bool.false_eq_true,
      or_false, reduceCtorEq, if_false, CowBTree.readRoot, CowBTree.readPages, CowBTree.readDepth,
      pending, if_true, size]
    rw [CowBTree.walk, if_neg (by simp [valid, CowBTree.WalkBounds.full])]
    change (tree.nodeAt _ tree.pendingRoot >>= _) = _
    rw [shown, ok_bind]
    simp only [CowBTree.walkEntries, CowBTree.WalkBounds.full, Bool.false_eq_true, if_false,
      keyBytes, admitted, if_true, CowBTree.resolveScannedAt, if_pos long]
    rfl
  · simp only [Reader.countInRange, CowBTree.countInRange, any_none, Bool.false_eq_true,
      if_false, CowBTree.readRoot, CowBTree.readDepth, pending, if_true]
    rw [CowBTree.Walker.walk, if_neg (by simp [valid, CowBTree.countWalker])]
    have opened : tree.openCounted (fun _ => false) Shared.empty.area tree.pendingRoot =
        .ok (.leaf (.decoded [] [⟨.owned [0, 0, 0, 0, 0, 0, 0, 7], .overflow first length⟩])) := by
      simp only [CowBTree.openCounted, pending, if_true, found]
      rfl
    change (tree.openCounted (fun _ => false) Shared.empty.area tree.pendingRoot >>= _) = _
    rw [opened, ok_bind]
    simp only [CowBTree.countWalker, CowBTree.countEntries, head?_cons, getLast?_singleton,
      keyBytes, admitted, Bool.and_self, if_true, length_singleton, Nat.zero_add]

end InlaySql.Btree
