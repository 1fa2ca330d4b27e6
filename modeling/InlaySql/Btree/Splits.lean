import InlaySql.Btree.Recycling
import InlaySql.Lib.Transition

/-!
# Every split fits

A leaf cell and a separator each take at most half a page beside the header, so a node
that fitted its page before one cell was placed in it is at most half a page too large, and
both halves of its split fit. The bound holds in every node a transaction can hold or read:
what it reads, some transaction held before.
-/

namespace InlaySql.Btree

open List Lib Wal

/-! ## Nodes with room for a second cell -/

/-- A leaf cell that leaves half its page to other cells, whose key also fits a separator. -/
structure RoomyCell (pageSize : Nat) (cell : Bytes × ValueView) : Prop where
  key : CowBTree.keyFits pageSize cell.1 = true
  size : headerSize + slotSize + cell.2.cellSize cell.1 ≤ pageSize / 2
  below : cell.2.Below (2 ^ 64)

/-- Every cell of the node leaves half its page to the others. -/
def NodeView.Roomy (pageSize : Nat) : NodeView -> Prop
  | .leaf cells => ∀ cell ∈ cells, RoomyCell pageSize cell
  | .internal leftmost cells => leftmost < 2 ^ 64 ∧
      ∀ cell ∈ cells, CowBTree.keyFits pageSize cell.1 = true ∧ cell.2 < 2 ^ 64

/-- What `leaf_size` and `internal_size` answer. -/
def Node.size : Node -> Nat
  | .leaf bytes entries => leafSize bytes entries
  | .internal bytes _ cells => internalSize bytes cells

def NodeView.size : NodeView -> Nat
  | .leaf cells => leafViewSize cells
  | .internal _ cells => internalViewSize cells

/-- A node of roomy cells that fits its page. -/
structure Node.Sound (pageSize : Nat) (node : Node) : Prop where
  ranged : node.Ranged
  roomy : node.view.Roomy pageSize
  size_le : node.size ≤ pageSize

/-- A page that decodes to nothing but a sound node, if it decodes to a node at all. -/
def PageSound (pageSize : Nat) (bytes : Bytes) : Prop :=
  ∀ node, decode pageSize bytes = .ok node -> node.Sound pageSize

def DirtyPage.Sound (pageSize : Nat) : DirtyPage -> Prop
  | .encoded bytes => PageSound pageSize bytes
  | .decoded node => node.Sound pageSize

variable {pageSize : Nat}

variable {node : Node} {writer : Writer}

theorem Node.size_eq (ranged : node.Ranged) : node.size = node.view.size := by
  cases node with
  | leaf bytes entries => exact leafSize_eq ranged
  | internal bytes leftmost cells => exact internalSize_eq bytes cells

theorem NodeView.Roomy.below {view : NodeView} (roomy : view.Roomy pageSize) :
    view.Below (2 ^ 64) := by
  cases view with
  | leaf cells => exact fun cell member => (roomy cell member).below
  | internal leftmost cells => exact ⟨roomy.1, fun cell member => (roomy.2 cell member).2⟩

theorem Node.Sound.fits (sound : node.Sound pageSize) : node.Fits pageSize := by
  cases node with
  | leaf bytes entries => exact ⟨sound.ranged, sound.size_le⟩
  | internal bytes leftmost cells => exact sound.size_le

theorem Node.Sound.encodes (sound : node.Sound pageSize) (most : pageSize < 2 ^ 16) :
    ∃ bytes, encodeNode pageSize node = .ok bytes ∧ PageSound pageSize bytes := by
  obtain ⟨bytes, encoded, -, reads⟩ := decode_encodeNode sound.fits most
  obtain ⟨found, isFound, ranged, same⟩ := reads sound.roomy.below
  refine ⟨bytes, encoded, fun node told => ?_⟩
  obtain rfl : found = node := Except.ok.inj (isFound.symm.trans told)
  refine ⟨ranged, same ▸ sound.roomy, ?_⟩
  rw [Node.size_eq ranged, same, <- Node.size_eq sound.ranged]
  exact sound.size_le

theorem decode_of_decodeOverflow {bytes : Bytes} {page : Nat × Bytes}
    (chained : decodeOverflow pageSize bytes = .ok page) : PageSound pageSize bytes := by
  have kind : bytes.getD offKind 0 = kindOverflow := by
    by_contra other
    obtain ⟨next, isNext, -⟩ := bind_eq_ok chained
    simp only [overflowNext, if_pos other] at isNext
    split at isNext <;> cases isNext
  intro node told
  simp only [decode, kind] at told
  split at told
  · cases told
  · obtain ⟨count, -, told⟩ := bind_eq_ok told
    obtain ⟨freeStart, -, told⟩ := bind_eq_ok told
    obtain ⟨leftmost, -, told⟩ := bind_eq_ok told
    split at told
    · cases told
    · split at told
      · cases told
      · obtain ⟨slots, -, told⟩ := bind_eq_ok told
        cases told

/-! ## Splits -/

/-- What a split leaves: two leaves with an entry each, or two inner nodes of which the
left one has a separator. -/
inductive HalvesFit (pageSize : Nat) : Node × Node -> Prop where
  | leaf {bytes : Bytes} {left right : List Entry} (leftFilled : left ≠ [])
      (rightFilled : right ≠ []) (leftFits : leafSize bytes left ≤ pageSize)
      (rightFits : leafSize bytes right ≤ pageSize) :
      HalvesFit pageSize (.leaf bytes left, .leaf bytes right)
  | internal {bytes : Bytes} {leftmost opener : Nat} {left right : List Separator}
      (leftFilled : left ≠ []) (leftFits : internalSize bytes left ≤ pageSize)
      (rightFits : internalSize bytes right ≤ pageSize) :
      HalvesFit pageSize (.internal bytes leftmost left, .internal bytes opener right)

/-! ## The handle -/

/-- The page numbers a handle may hand out or start from are 64-bit numbers. -/
structure Writer.Numbered (writer : Writer) : Prop where
  root : writer.root < 2 ^ 64
  nextPageId : writer.nextPageId < 2 ^ 64
  pendingRoot : writer.pendingRoot < 2 ^ 64
  pendingNext : writer.pendingNext < 2 ^ 64
  candidates : ∀ candidate ∈ writer.freeCandidates, candidate.2 < 2 ^ 64

/-- A handle whose pages are sound, and every split of which fitted. -/
structure Writer.Sound (pageSize : Nat) (writer : Writer) : Prop where
  pageSize_eq : writer.pageSize = pageSize
  numbered : writer.Numbered
  pages : ∀ (id : Nat) page, writer.dirty[id]? = some page -> page.Sound pageSize
  splits : ∀ halves ∈ writer.splits, HalvesFit pageSize halves

/-- Committed pages of which every node is sound. -/
def Backing.Sound (pageSize : Nat) (backing : Backing) : Prop :=
  ∀ id node, backing.committed.node id = .ok node -> node.Sound pageSize

namespace Writer

/-- A part of an operation that keeps the handle sound, answers what is `good` and indexes
nothing out of bounds. -/
def Safe (pageSize : Nat) {α : Type} (good : α -> Prop) (self : Writing α) : Prop :=
  self.Ends (Writer.Sound pageSize) good (· ≠ .outOfBounds)

/-- Only numbers and bookkeeping changed. -/
structure Reserved (before after : Writer) : Prop where
  tree : after.toCowBTree = { before.toCowBTree with pendingNext := after.pendingNext }
  splits : after.splits = before.splits
  numbered : before.Numbered -> after.Numbered

theorem Reserved.trans {before middle after : Writer} (first : Reserved before middle)
    (second : Reserved middle after) : Reserved before after where
  tree := by
    have tree := second.tree
    rw [first.tree] at tree
    exact tree
  splits := second.splits.trans first.splits
  numbered numbered := second.numbered (first.numbered numbered)

variable {key : Bytes} (backing : Backing) (self : Writer) {bytes : Bytes} {stored : ValueRef}
  {value : Bytes} {entries : List Entry} {leftmost : Nat} {cells : List Separator}
  {outcome : CowBTree.InsertOutcome}

theorem decodeFreeListKey_lt {freedAt id : Nat}
    (decoded : decodeFreeListKey key = some (freedAt, id)) : id < 2 ^ 64 := by
  unfold decodeFreeListKey at decoded
  split at decoded
  · simp only at decoded
    split at decoded
    · cases decoded
    · rename_i long
      injection decoded with same
      injection same with _ same
      have small := ofBe_lt ((key.drop freeListPrefix.length).drop 8)
      rw [length_drop, not_not.mp long] at small
      rw [<- same]
      simpa using small
  · cases decoded

theorem offerRows_lt (eligibleBefore : Nat) (consumed : List (Nat × Nat))
    (rows : List (Bytes × Bytes)) (cursor : Option Bytes) {candidates : List (Nat × Nat)}
    (small : ∀ candidate ∈ candidates, candidate.2 < 2 ^ 64) :
    ∀ candidate ∈ (offerRows eligibleBefore consumed rows cursor candidates).2.1,
      candidate.2 < 2 ^ 64 := by
  induction rows generalizing cursor candidates with
  | nil => exact small
  | cons row rows ih =>
    obtain ⟨key, value⟩ := row
    unfold offerRows
    cases decoded : decodeFreeListKey key with
    | none => exact ih (some key) small
    | some row =>
      obtain ⟨freedAt, id⟩ := row
      simp only
      split
      · exact small
      · split
        · exact ih (some key) small
        · exact ih (some key) (forall_mem_cons.mpr ⟨decodeFreeListKey_lt decoded, small⟩)

theorem refillFreeCandidates_reserved : Reserved self (self.refillFreeCandidates backing) := by
  unfold refillFreeCandidates
  split
  · exact ⟨rfl, rfl, id⟩
  · split
    · simp only
      split
      · exact ⟨rfl, rfl, fun numbered => ⟨numbered.root, numbered.nextPageId,
          numbered.pendingRoot, numbered.pendingNext, numbered.candidates⟩⟩
      · exact ⟨rfl, rfl, fun numbered => ⟨numbered.root, numbered.nextPageId,
          numbered.pendingRoot, numbered.pendingNext,
          offerRows_lt _ _ _ _ numbered.candidates⟩⟩
    · exact ⟨rfl, rfl, id⟩

theorem nextPage_reserved : Reserved self self.nextPage.2 where
  tree := rfl
  splits := rfl
  numbered numbered := ⟨numbered.root, numbered.nextPageId, numbered.pendingRoot,
    Nat.mod_lt _ (by positivity), numbered.candidates⟩

theorem allocPage_reserved : Reserved self (self.allocPage backing).2 ∧
      (self.Numbered -> (self.allocPage backing).1 < 2 ^ 64) := by
  unfold allocPage
  split
  · simp only
    generalize isReady : (if self.freeCandidates.isEmpty then self.refillFreeCandidates backing
      else self) = ready
    have refilled : Reserved self ready := by
      rw [<- isReady]
      split
      · exact refillFreeCandidates_reserved backing self
      · exact ⟨rfl, rfl, id⟩
    cases candidates : ready.freeCandidates with
    | nil =>
      exact ⟨refilled.trans (nextPage_reserved ready),
        fun numbered => (refilled.numbered numbered).pendingNext⟩
    | cons candidate rest =>
      have small (numbered : self.Numbered) : ∀ other ∈ candidate :: rest, other.2 < 2 ^ 64 :=
        candidates ▸ (refilled.numbered numbered).candidates
      refine ⟨⟨refilled.tree, refilled.splits, fun numbered => ?_⟩, fun numbered =>
        small numbered candidate mem_cons_self⟩
      have kept := refilled.numbered numbered
      exact ⟨kept.root, kept.nextPageId, kept.pendingRoot, kept.pendingNext,
        (forall_mem_cons.mp (small numbered)).2⟩
  · exact ⟨nextPage_reserved self, fun numbered => numbered.pendingNext⟩

/-! ## Pages -/

variable {before after : Writer} {id : Nat} {node : Node}

section

variable (sound : before.Sound pageSize)

include sound

theorem Sound.reserved (reserved : Reserved before after) : after.Sound pageSize where
  pageSize_eq := by
    rw [reserved.tree]
    exact sound.pageSize_eq
  numbered := reserved.numbered sound.numbered
  pages := by
    rw [reserved.tree]
    exact sound.pages
  splits := reserved.splits ▸ sound.splits

theorem Sound.insert (id : Nat) (page : DirtyPage) (pageSound : page.Sound pageSize) :
    Writer.Sound pageSize { before with dirty := before.dirty.insert id page } where
  pageSize_eq := sound.pageSize_eq
  numbered := ⟨sound.numbered.root, sound.numbered.nextPageId, sound.numbered.pendingRoot,
    sound.numbered.pendingNext, sound.numbered.candidates⟩
  pages := by
    intro other found here
    rw [Std.TreeMap.getElem?_insert] at here
    split at here
    · cases here
      exact pageSound
    · exact sound.pages other found here
  splits := sound.splits

theorem Sound.erase (id : Nat) :
    Writer.Sound pageSize { before with dirty := before.dirty.erase id } where
  pageSize_eq := sound.pageSize_eq
  numbered := ⟨sound.numbered.root, sound.numbered.nextPageId, sound.numbered.pendingRoot,
    sound.numbered.pendingNext, sound.numbered.candidates⟩
  pages := by
    intro other found here
    rw [Std.TreeMap.getElem?_erase] at here
    split at here
    · cases here
    · exact sound.pages other found here
  splits := sound.splits

theorem Sound.supersede (id : Nat) : (supersede id before).Sound pageSize := by
  unfold Writer.supersede
  split
  · exact sound.erase id
  · split
    · exact ⟨sound.pageSize_eq, ⟨sound.numbered.root, sound.numbered.nextPageId,
        sound.numbered.pendingRoot, sound.numbered.pendingNext, sound.numbered.candidates⟩,
        sound.pages, sound.splits⟩
    · exact sound

end

theorem refused_safe {α : Type} {good : α -> Prop} (error : Error) :
    Safe pageSize good (refused error : Writing α) := .fail fun same => by cases same

theorem ask_safe {α : Type} {good : α -> Prop} {read : CowBTree -> Except Error α}
    (answers : ∀ (self : Writer) value, self.Sound pageSize -> read self.toCowBTree = .ok value ->
      good value) : Safe pageSize good (ask read) := by
  refine .tryGets ?_ ?_
  · intro self value sound told
    cases answer : read self.toCowBTree with
    | ok found =>
      rw [answer] at told
      cases told
      exact answers self value sound answer
    | error error =>
      rw [answer] at told
      cases told
  · rintro self error - told rfl
    exact refuse_ne_outOfBounds _ told

theorem alloc_safe : Safe pageSize (· < 2 ^ 64) (alloc backing) :=
  .of_ok (fun _ => rfl) fun self sound =>
    have reserved := allocPage_reserved backing self
    ⟨sound.reserved reserved.1, reserved.2 sound.numbered⟩

theorem hold_safe (id : Nat) (sound : node.Sound pageSize) :
    Safe pageSize (fun _ => True) (hold id node) :=
  .change (fun _ kept => kept.insert id (.decoded node) sound) trivial

theorem holdBytes_safe (id : Nat) (sound : PageSound pageSize bytes) :
    Safe pageSize (fun _ => True) (holdBytes id bytes) :=
  .change (fun _ kept => kept.insert id (.encoded bytes) sound) trivial

theorem supersede_safe (id : Nat) :
    Safe pageSize (fun _ => True) (Stateful.change (supersede id)) :=
  .change (fun _ kept => kept.supersede id) trivial

theorem supersedeTaken_safe (id : Nat) (wasDirty : Bool) :
    Safe pageSize (fun _ => True) (supersedeTaken id wasDirty) := by
  unfold supersedeTaken
  split
  · exact .pure trivial
  · exact supersede_safe id

theorem slotFor_safe {source : Nat} (small : source < 2 ^ 64) (wasDirty : Bool) :
    Safe pageSize (· < 2 ^ 64) (slotFor backing source wasDirty) := by
  unfold slotFor
  split
  · exact .pure small
  · exact (supersede_safe source).bind fun _ _ => alloc_safe backing

section

variable {backing : Backing} (sound : before.Sound pageSize) (committed : backing.Sound pageSize)

include sound committed

theorem Sound.nodeAt (read : before.nodeAt backing.committed id = .ok node) :
    node.Sound pageSize := by
  unfold CowBTree.nodeAt at read
  rw [sound.pageSize_eq] at read
  cases held : before.dirty[id]? with
  | none =>
    rw [held] at read
    exact committed id node read
  | some page =>
    rw [held] at read
    have pageSound := sound.pages id page held
    cases page with
    | encoded bytes => exact pageSound node read
    | decoded found =>
      cases read
      exact pageSound

theorem Sound.take {wasDirty : Bool} {tree : CowBTree}
    (taken : before.toCowBTree.takeNodeForWrite backing.committed id = .ok (node, wasDirty, tree)) :
    node.Sound pageSize ∧ Writer.Sound pageSize { before with toCowBTree := tree } := by
  have reads := @Sound.nodeAt pageSize before id node backing sound committed
  unfold CowBTree.takeNodeForWrite at taken
  unfold CowBTree.nodeAt at reads
  cases held : before.dirty[id]? with
  | none =>
    rw [held] at taken reads
    obtain ⟨found, isFound, same⟩ := bind_eq_ok taken
    cases same
    exact ⟨reads isFound, sound⟩
  | some page =>
    rw [held] at taken reads
    cases page with
    | encoded bytes =>
      obtain ⟨found, isFound, same⟩ := bind_eq_ok taken
      cases same
      exact ⟨reads isFound, sound.erase id⟩
    | decoded found =>
      cases taken
      exact ⟨reads rfl, sound.erase id⟩

end

theorem takeNodeForWrite_safe {backing : Backing} (committed : backing.Sound pageSize)
    (id : Nat) : Safe pageSize (fun taken : Node × Bool => taken.1.Sound pageSize)
      (takeNodeForWrite backing id) := by
  intro self sound
  cases told : self.toCowBTree.takeNodeForWrite backing.committed id with
  | error error =>
    have ran : takeNodeForWrite backing id self = (.error (.refused error), self) := by
      unfold takeNodeForWrite ask
      simp only [Stateful.bind_apply, Stateful.tryGets_apply, told]
      rfl
    rw [ran]
    exact ⟨sound, fun same => by cases same⟩
  | ok taken =>
    obtain ⟨node, wasDirty, tree⟩ := taken
    have ran : takeNodeForWrite backing id self =
        (.ok (node, wasDirty), { self with toCowBTree := tree }) := by
      unfold takeNodeForWrite ask
      simp only [Stateful.bind_apply, Stateful.tryGets_apply, told]
      rfl
    rw [ran]
    exact (sound.take committed told).symm

/-! ## Overflow chains -/

theorem freeChain_safe (turns id : Nat) :
    Safe pageSize (fun _ => True) (freeChain backing turns id) := by
  induction turns generalizing id with
  | zero =>
    unfold freeChain
    split
    · exact .pure trivial
    · exact refused_safe _
  | succ turns ih =>
    unfold freeChain
    split
    · exact .pure trivial
    · refine Stateful.Ends.through (fun _ => True) (ask_safe fun _ _ _ _ => trivial) fun page _ => ?_
      exact (supersede_safe id).bind fun _ _ => ih page.1

theorem freeOverflowChain_safe (value : Option ValueRef) :
    Safe pageSize (fun _ => True) (freeOverflowChain backing value) := by
  unfold freeOverflowChain
  split
  · refine Stateful.Ends.through (fun _ => True) (.gets fun _ _ => trivial) fun reuse _ => ?_
    split
    · exact Stateful.Ends.through (fun _ => True) (.gets fun _ _ => trivial)
        fun turns _ => freeChain_safe backing turns _
    · exact .pure trivial
  · exact .pure trivial

theorem allocPages_safe (count : Nat) :
    Safe pageSize (fun ids => ids.length = count ∧ ∀ id ∈ ids, id < 2 ^ 64)
      (allocPages backing count) := by
  induction count with
  | zero => exact .pure ⟨rfl, by simp⟩
  | succ count ih =>
    unfold allocPages
    refine (alloc_safe backing).bind fun id small => ?_
    refine ih.bind fun ids ended => .pure ⟨by simp [ended.1], ?_⟩
    exact forall_mem_cons.mpr ⟨small, ended.2⟩

theorem writeChain_safe {ids : List Nat} (small : ∀ id ∈ ids, id < 2 ^ 64)
    (chunks : List Bytes) : Safe pageSize (fun _ => True) (writeChain pageSize ids chunks) := by
  induction ids generalizing chunks with
  | nil => exact .pure trivial
  | cons id ids ih =>
    cases chunks with
    | nil => exact .pure trivial
    | cons chunk rest =>
      unfold writeChain
      refine Stateful.Ends.through (PageSound pageSize) (ask_safe ?_) fun bytes sound =>
        (holdBytes_safe id sound).bind fun _ _ => ih (forall_mem_cons.mp small).2 rest
      intro self bytes _ encoded
      have linked : ids.headD 0 < 2 ^ 64 := by
        cases ids with
        | nil => decide
        | cons next ids => exact small next (by simp)
      have fits : overflowHeaderSize + chunk.length ≤ pageSize := by
        by_contra large
        rw [encodeOverflow, if_pos (by omega)] at encoded
        cases encoded
      obtain ⟨page, isPage, -, reads⟩ := decodeOverflow_encodeOverflow (ids.headD 0) fits
      rw [encoded] at isPage
      cases isPage
      exact decode_of_decodeOverflow (reads linked)

/-! ## Stored values -/

/-- What a value is stored as makes a roomy cell under its key, whatever page it is put on. -/
def Stored (pageSize : Nat) (key : Bytes) (stored : ValueRef) : Prop :=
  ∀ source, stored.Ranged source ∧ RoomyCell pageSize (key, stored.view source)

theorem Stored.size_le (holds : Stored pageSize key stored) :
    headerSize + slotSize + leafCellSize key stored ≤ pageSize / 2 := by
  obtain ⟨ranged, cell⟩ := holds []
  rw [leafCellSize_eq ranged]
  exact cell.size

theorem storeValue_safe (fits : CowBTree.keyFits pageSize key = true)
    (addressable : value.length < 2 ^ 64) :
    Safe pageSize (Stored pageSize key) (storeValue backing key value) := by
  unfold storeValue
  refine Stateful.Ends.through (· = pageSize) (.gets fun _ sound => sound.pageSize_eq) ?_
  rintro pageSize rfl
  have room := (CowBTree.keyFits_iff _ _).mp fits
  split
  · rename_i inlined
    refine .pure fun source => ⟨trivial, fits, ?_, trivial⟩
    exact (CowBTree.inlineEntryFits_iff _ _ _).mp inlined
  · rename_i large
    rw [CowBTree.inlineEntryFits_iff] at large
    simp only [headerSize, slotSize] at large
    -- The key leaves room for a pointer, so only a value with bytes in it is not inlined.
    refine (allocPages_safe backing _).bind fun ids taken => ?_
    obtain ⟨count, small⟩ := taken
    refine (writeChain_safe small _).bind fun _ _ => ?_
    cases ids with
    | nil =>
      have payload : 0 < overflowPayloadSize pageSize := by
        unfold overflowPayloadSize overflowHeaderSize
        omega
      have positive : 0 < CowBTree.chunkCount (overflowPayloadSize pageSize) value :=
        Nat.div_pos (by omega) payload
      rw [<- count] at positive
      cases positive
    | cons first ids =>
      refine Stateful.Ends.through (· = first) (.pure rfl) ?_
      rintro _ rfl
      refine .pure fun source => ⟨trivial, fits, ?_, small _ mem_cons_self, addressable⟩
      simp only [headerSize, slotSize, ValueRef.view, ValueView.cellSize]
      omega

/-! ## Settling a node -/

/-- An entry of a leaf whose cell is roomy. -/
def RoomyEntry (pageSize : Nat) (bytes : Bytes) (entry : Entry) : Prop :=
  entry.value.Ranged bytes ∧ RoomyCell pageSize (entry.view bytes)

/-- A separator whose cell is roomy. -/
def RoomySeparator (pageSize : Nat) (bytes : Bytes) (cell : Separator) : Prop :=
  CowBTree.keyFits pageSize (keyBytes bytes cell.key) = true ∧ cell.child < 2 ^ 64

theorem leaf_sound_iff : (Node.leaf bytes entries).Sound pageSize ↔
      (∀ entry ∈ entries, RoomyEntry pageSize bytes entry) ∧ leafSize bytes entries ≤ pageSize := by
  constructor
  · rintro ⟨ranged, roomy, size⟩
    exact ⟨fun entry member => ⟨ranged entry member, roomy _ (mem_map_of_mem member)⟩, size⟩
  · rintro ⟨roomy, size⟩
    exact ⟨fun entry member => (roomy entry member).1,
      forall_mem_map.mpr fun entry member => (roomy entry member).2, size⟩

theorem internal_sound_iff :
    (Node.internal bytes leftmost cells).Sound pageSize ↔ leftmost < 2 ^ 64 ∧
      (∀ cell ∈ cells, RoomySeparator pageSize bytes cell) ∧
        internalSize bytes cells ≤ pageSize := by
  constructor
  · rintro ⟨-, ⟨first, roomy⟩, size⟩
    exact ⟨first, fun cell member => roomy _ (mem_map_of_mem member), size⟩
  · rintro ⟨first, roomy, size⟩
    exact ⟨trivial, ⟨first, forall_mem_map.mpr roomy⟩, size⟩

/-- The page numbers an outcome names are numbers, and its separator fits a cell. -/
def OutcomeFits (pageSize : Nat) : CowBTree.InsertOutcome -> Prop
  | .replaced id => id < 2 ^ 64
  | .split left right separator =>
    left < 2 ^ 64 ∧ right < 2 ^ 64 ∧ CowBTree.keyFits pageSize separator = true

theorem reserveSplitPage_safe (leftId : Nat) (node : Node) :
    Safe pageSize (fun reserved => reserved.1 < 2 ^ 64 ∧ reserved.2 = node)
      (reserveSplitPage backing leftId node) := by
  intro self sound
  let whole : Writer := { self with dirty := self.dirty.insert leftId (.decoded node) }
  obtain ⟨reserved, small⟩ := allocPage_reserved backing whole
  have numbered : whole.Numbered := ⟨sound.numbered.root, sound.numbered.nextPageId,
    sound.numbered.pendingRoot, sound.numbered.pendingNext, sound.numbered.candidates⟩
  have dirty : (whole.allocPage backing).2.dirty = self.dirty.insert leftId (.decoded node) := by
    rw [reserved.tree]
  have taken : (whole.allocPage backing).2.toCowBTree.takeNodeForWrite backing.committed leftId =
      .ok (node, true, { (whole.allocPage backing).2.toCowBTree with
        dirty := (whole.allocPage backing).2.dirty.erase leftId }) := by
    unfold CowBTree.takeNodeForWrite
    have held : (whole.allocPage backing).2.dirty[leftId]? = some (.decoded node) := by
      rw [dirty]
      exact Std.TreeMap.getElem?_insert_self
    rw [held]
  have ran : reserveSplitPage backing leftId node self =
      (.ok ((whole.allocPage backing).1, node), { (whole.allocPage backing).2 with
        dirty := (whole.allocPage backing).2.dirty.erase leftId }) := by
    have takes : takeNodeForWrite backing leftId (whole.allocPage backing).2 =
        (.ok (node, true), { (whole.allocPage backing).2 with
          dirty := (whole.allocPage backing).2.dirty.erase leftId }) := by
      unfold takeNodeForWrite ask
      simp only [Stateful.bind_apply, Stateful.tryGets_apply, taken]
      rfl
    unfold reserveSplitPage
    rw [Stateful.bind_of_ok (show hold leftId node self = (.ok (), whole) from rfl),
      Stateful.bind_of_ok (show alloc backing whole = (.ok _, _) from rfl),
      Stateful.bind_of_ok takes]
    rfl
  rw [ran]
  refine ⟨⟨?_, ?_, ?_, ?_⟩, small numbered, rfl⟩
  · have same := congrArg CowBTree.pageSize reserved.tree
    exact same.trans sound.pageSize_eq
  · have kept := reserved.numbered numbered
    exact ⟨kept.root, kept.nextPageId, kept.pendingRoot, kept.pendingNext, kept.candidates⟩
  · intro id page here
    simp only [dirty, Std.TreeMap.getElem?_erase, Std.TreeMap.getElem?_insert] at here
    split at here
    · cases here
    · exact sound.pages id page here
  · exact reserved.splits ▸ sound.splits

theorem holdHalves_safe {leftId rightId : Nat} {left right : Node}
    (leftSound : left.Sound pageSize) (rightSound : right.Sound pageSize)
    (halves : HalvesFit pageSize (left, right)) :
    Safe pageSize (fun _ => True) (holdHalves leftId rightId left right) := by
  unfold holdHalves
  refine (hold_safe leftId leftSound).bind fun _ _ => ?_
  refine (hold_safe rightId rightSound).bind fun _ _ => .change ?_ trivial
  exact fun self sound => ⟨sound.pageSize_eq, ⟨sound.numbered.root, sound.numbered.nextPageId,
    sound.numbered.pendingRoot, sound.numbered.pendingNext, sound.numbered.candidates⟩,
    sound.pages, forall_mem_cons.mpr ⟨halves, sound.splits⟩⟩

section

variable (least : 128 ≤ pageSize) (backing : Backing) {id : Nat} (small : id < 2 ^ 64)
    (wasDirty : Bool)

include least small

theorem settleLeaf_safe (roomy : ∀ entry ∈ entries, RoomyEntry pageSize bytes entry)
    (bounded : leafSize bytes entries ≤ pageSize + pageSize / 2) :
    Safe pageSize (OutcomeFits pageSize) (settleLeaf backing id wasDirty bytes entries) := by
  unfold settleLeaf
  refine Stateful.Ends.through (· = pageSize) (.gets fun _ sound => sound.pageSize_eq) ?_
  rintro pageSize rfl
  split
  · rename_i fits
    refine (slotFor_safe backing small wasDirty).bind fun newId newSmall => ?_
    exact (hold_safe newId (leaf_sound_iff.mpr ⟨roomy, fits⟩)).bind fun _ _ => .pure newSmall
  · rename_i large
    refine (slotFor_safe backing small wasDirty).bind fun leftId leftSmall => ?_
    refine (reserveSplitPage_safe backing leftId _).bind ?_
    rintro ⟨rightId, node⟩ ⟨rightSmall, rfl⟩
    have each : ∀ entry ∈ entries, headerSize + slotSize +
        leafCellSize (keyBytes bytes entry.key) entry.value ≤ pageSize / 2 := by
      intro entry member
      obtain ⟨ranged, cell⟩ := roomy entry member
      rw [leafCellSize_eq ranged]
      exact cell.size
    have filled : entries ≠ [] := by
      rintro rfl
      exact large (show headerSize ≤ pageSize by unfold headerSize; omega)
    obtain ⟨leftOpen, rightOpen, leftFits, rightFits⟩ :=
      splitPoint_fits filled each (not_le.mp large) bounded
    simp only
    unfold leafSplitPoint
    generalize splitPoint pageSize entries _ = mid at leftOpen rightOpen leftFits rightFits ⊢
    have rest := drop_eq_getElem_cons rightOpen
    rw [rest]
    rw [rest] at rightFits
    have leftSound : (Node.leaf bytes (entries.take mid)).Sound pageSize := leaf_sound_iff.mpr
      ⟨fun entry member => roomy entry (mem_of_mem_take member), leftFits⟩
    have rightSound : (Node.leaf bytes (entries[mid] :: entries.drop (mid + 1))).Sound pageSize :=
      leaf_sound_iff.mpr ⟨fun entry member => roomy entry (mem_of_mem_drop (rest ▸ member)),
        rightFits⟩
    have leftFilled : entries.take mid ≠ [] := by simp [leftOpen.ne', filled]
    refine (holdHalves_safe leftSound rightSound
      (.leaf leftFilled (cons_ne_nil _ _) leftFits rightFits)).bind fun _ _ => .pure ?_
    exact ⟨leftSmall, rightSmall, (roomy _ (getElem_mem rightOpen)).2.key⟩

/-- An internal node at most half a page too large settles whole or in two halves that
fit, with a separator in the left one. -/
theorem settleInternal_safe (firstSmall : leftmost < 2 ^ 64)
    (roomy : ∀ cell ∈ cells, RoomySeparator pageSize bytes cell)
    (bounded : internalSize bytes cells ≤ pageSize + pageSize / 2) :
    Safe pageSize (OutcomeFits pageSize)
      (settleInternal backing id wasDirty bytes leftmost cells) := by
  unfold settleInternal
  refine Stateful.Ends.through (· = pageSize) (.gets fun _ sound => sound.pageSize_eq) ?_
  rintro pageSize rfl
  split
  · rename_i fits
    refine (slotFor_safe backing small wasDirty).bind fun newId newSmall => ?_
    exact (hold_safe newId (internal_sound_iff.mpr ⟨firstSmall, roomy, fits⟩)).bind
      fun _ _ => .pure newSmall
  · rename_i large
    refine (slotFor_safe backing small wasDirty).bind fun leftId leftSmall => ?_
    refine (reserveSplitPage_safe backing leftId _).bind ?_
    rintro ⟨rightId, node⟩ ⟨rightSmall, rfl⟩
    have each : ∀ cell ∈ cells, headerSize + slotSize +
        internalCellSize (keyBytes bytes cell.key) ≤ pageSize / 2 := by
      intro cell member
      have room := (CowBTree.keyFits_iff _ _).mp (roomy cell member).1
      simp only [headerSize, slotSize, internalCellSize]
      omega
    have filled : cells ≠ [] := by
      rintro rfl
      exact large (show headerSize ≤ pageSize by unfold headerSize; omega)
    obtain ⟨leftOpen, rightOpen, leftFits, rightFits⟩ :=
      splitPoint_fits filled each (not_le.mp large) bounded
    simp only
    unfold internalSplitPoint
    generalize splitPoint pageSize cells _ = mid at leftOpen rightOpen leftFits rightFits ⊢
    have rest := drop_eq_getElem_cons rightOpen
    rw [rest]
    rw [rest, map_cons, sum_cons, length_cons] at rightFits
    have restFits : internalSize bytes (cells.drop (mid + 1)) ≤ pageSize := by
      unfold internalSize
      simp only [slotSize] at rightFits ⊢
      omega
    have promoted := roomy _ (getElem_mem rightOpen)
    have leftSound : (Node.internal bytes leftmost (cells.take mid)).Sound pageSize :=
      internal_sound_iff.mpr ⟨firstSmall,
        fun cell member => roomy cell (mem_of_mem_take member), leftFits⟩
    have rightSound : (Node.internal bytes cells[mid].child (cells.drop (mid + 1))).Sound
        pageSize := internal_sound_iff.mpr ⟨promoted.2,
          fun cell member => roomy cell (mem_of_mem_drop member), restFits⟩
    have leftFilled : cells.take mid ≠ [] := by simp [leftOpen.ne', filled]
    refine (holdHalves_safe leftSound rightSound
      (.internal leftFilled leftFits restFits)).bind fun _ _ => .pure ?_
    exact ⟨leftSmall, rightSmall, promoted.1⟩

end

/-! ## Changing cells -/

theorem searchLoop_ok {keys : Nat -> Bytes} {turns low high found : Nat}
    (ran : searchLoop keys key turns low high = .ok found) : keys found = key := by
  induction turns generalizing low high with
  | zero => cases ran
  | succ turns ih =>
    unfold searchLoop at ran
    split at ran
    · simp only at ran
      split at ran
      · exact ih ran
      · exact ih ran
      · rename_i same
        cases ran
        exact keyCmp_eq_eq.mp same
    · cases ran

/-- Placing a roomy entry keeps every entry roomy, and the leaf grows by no more than the
cell placed. -/
theorem placeEntry_roomy {value : ValueRef} (stored : Stored pageSize key value)
    (roomy : ∀ entry ∈ entries, RoomyEntry pageSize bytes entry) :
    (∀ entry ∈ CowBTree.placeEntry bytes entries key value, RoomyEntry pageSize bytes entry) ∧
      leafSize bytes (CowBTree.placeEntry bytes entries key value) ≤
        leafSize bytes entries + (slotSize + leafCellSize key value) := by
  obtain ⟨ranged, cell⟩ := stored bytes
  unfold CowBTree.placeEntry leafSize
  cases searched : searchEntries bytes entries key with
  | ok i =>
    simp only
    by_cases inside : i < entries.length
    · have isKey : keyBytes bytes entries[i].key = key := by
        have found := searchLoop_ok searched
        rwa [entryKey, getElem?_eq_getElem inside, Option.map_some, Option.getD_some] at found
      rw [modify_eq_take_cons_drop inside]
      have whole : entries = entries.take i ++ entries[i] :: entries.drop (i + 1) := by
        rw [<- drop_eq_getElem_cons inside, take_append_drop]
      constructor
      · intro entry member
        rcases mem_append.mp member with front | back
        · exact roomy entry (mem_of_mem_take front)
        · rcases mem_cons.mp back with rfl | back
          · refine ⟨ranged, ?_⟩
            simpa only [Entry.view, isKey] using cell
          · exact roomy entry (mem_of_mem_drop back)
      · conv_rhs => rw [whole]
        simp only [map_append, map_cons, sum_append, sum_cons, length_append, length_cons, isKey]
        omega
    · rw [modify_eq_self (by omega)]
      exact ⟨roomy, by omega⟩
  | error i =>
    simp only
    by_cases inside : i ≤ entries.length
    · rw [insertIdx_eq_take_drop _ _ _ inside]
      have whole : entries = entries.take i ++ entries.drop i := (take_append_drop i _).symm
      constructor
      · intro entry member
        rcases mem_append.mp member with front | back
        · exact roomy entry (mem_of_mem_take front)
        · rcases mem_cons.mp back with rfl | back
          · exact ⟨ranged, cell⟩
          · exact roomy entry (mem_of_mem_drop back)
      · conv_rhs => rw [whole]
        simp only [map_append, map_cons, sum_append, sum_cons,
          length_append, length_cons, keyBytes, slotSize]
        omega
    · rw [insertIdx_of_length_lt (by omega)]
      exact ⟨roomy, by omega⟩

theorem dropEntry_roomy (key : Bytes) (sound : (Node.leaf bytes entries).Sound pageSize) :
    (Node.leaf bytes (CowBTree.dropEntry bytes entries key)).Sound pageSize := by
  obtain ⟨roomy, size⟩ := leaf_sound_iff.mp sound
  have fewer : (CowBTree.dropEntry bytes entries key).Sublist entries := by
    unfold CowBTree.dropEntry
    split
    · exact eraseIdx_sublist _ _
    · exact List.Sublist.refl _
  refine leaf_sound_iff.mpr ⟨fun entry member => roomy entry (fewer.subset member), ?_⟩
  have cells := (fewer.map fun entry =>
    leafCellSize (keyBytes bytes entry.key) entry.value).sum_le_sum fun _ _ => Nat.zero_le _
  have count := fewer.length_le
  unfold leafSize at size ⊢
  simp only [slotSize] at size ⊢
  omega

theorem replaceChild_roomy {newChild : Nat} (idx : Nat) (firstSmall : leftmost < 2 ^ 64)
    (small : newChild < 2 ^ 64) (roomy : ∀ cell ∈ cells, RoomySeparator pageSize bytes cell) :
    (CowBTree.replaceChild cells leftmost idx newChild).2 < 2 ^ 64 ∧
      (∀ cell ∈ (CowBTree.replaceChild cells leftmost idx newChild).1,
        RoomySeparator pageSize bytes cell) ∧
      internalSize bytes (CowBTree.replaceChild cells leftmost idx newChild).1 =
        internalSize bytes cells := by
  unfold CowBTree.replaceChild
  split
  · exact ⟨small, roomy, rfl⟩
  · refine ⟨firstSmall, ?_, ?_⟩
    · intro cell member
      obtain ⟨position, bound, rfl⟩ := mem_iff_getElem.mp member
      rw [getElem_modify]
      rw [length_modify] at bound
      have old := roomy _ (getElem_mem bound)
      split
      · exact ⟨old.1, small⟩
      · exact old
    · unfold internalSize
      rw [length_modify]
      congr 2
      apply ext_getElem (by simp)
      intro position bound _
      simp only [getElem_map, getElem_modify]
      split <;> rfl

theorem placeSplit_roomy {separator : Bytes} {left right : Nat} (idx : Nat)
    (firstSmall : leftmost < 2 ^ 64) (leftSmall : left < 2 ^ 64) (rightSmall : right < 2 ^ 64)
    (fits : CowBTree.keyFits pageSize separator = true)
    (roomy : ∀ cell ∈ cells, RoomySeparator pageSize bytes cell) :
    (CowBTree.placeSplit cells leftmost idx left right separator).2 < 2 ^ 64 ∧
      (∀ cell ∈ (CowBTree.placeSplit cells leftmost idx left right separator).1,
        RoomySeparator pageSize bytes cell) ∧
      internalSize bytes (CowBTree.placeSplit cells leftmost idx left right separator).1 ≤
        internalSize bytes cells + (slotSize + internalCellSize separator) := by
  obtain ⟨first, replaced, size⟩ := replaceChild_roomy idx firstSmall leftSmall roomy
  unfold CowBTree.placeSplit
  generalize CowBTree.replaceChild cells leftmost idx left = changed at first replaced size ⊢
  obtain ⟨changed, first⟩ := changed
  refine ⟨‹_›, ?_, ?_⟩
  · intro cell member
    rcases eq_or_mem_of_mem_insertIdx member with rfl | old
    · exact ⟨fits, rightSmall⟩
    · exact replaced cell old
  · simp only at size ⊢
    by_cases inside : idx ≤ changed.length
    · rw [insertIdx_eq_take_drop _ _ _ inside, <- size]
      unfold internalSize
      conv_rhs => rw [<- take_append_drop idx changed]
      simp only [map_append, map_cons, sum_append, sum_cons,
        length_append, length_cons, keyBytes, slotSize]
      omega
    · rw [insertIdx_of_length_lt (by omega), size]
      omega

theorem absorbOutcome_safe (least : 128 ≤ pageSize) (backing : Backing)
    (small : id < 2 ^ 64) (wasDirty : Bool) (idx : Nat)
    (sound : (Node.internal bytes leftmost cells).Sound pageSize)
    (fits : OutcomeFits pageSize outcome) :
    Safe pageSize (OutcomeFits pageSize)
      (absorbOutcome backing id wasDirty bytes leftmost cells idx outcome) := by
  obtain ⟨firstSmall, roomy, size⟩ := internal_sound_iff.mp sound
  cases outcome with
  | replaced newChild =>
    obtain ⟨first, replaced, same⟩ := replaceChild_roomy idx firstSmall fits roomy
    unfold absorbOutcome
    refine (slotFor_safe backing small wasDirty).bind fun newId newSmall => ?_
    exact (hold_safe newId (internal_sound_iff.mpr ⟨first, replaced, same.le.trans size⟩)).bind
      fun _ _ => .pure newSmall
  | split left right separator =>
    obtain ⟨leftSmall, rightSmall, keyFits⟩ := fits
    obtain ⟨first, placed, grown⟩ :=
      placeSplit_roomy idx firstSmall leftSmall rightSmall keyFits roomy
    have room := (CowBTree.keyFits_iff _ _).mp keyFits
    refine settleInternal_safe least backing small wasDirty first placed (grown.trans ?_)
    simp only [slotSize, internalCellSize]
    omega

/-! ## Insertion and deletion -/

theorem descend_safe {backing : Backing} (committed : backing.Sound pageSize) (id : Nat)
    (key : Bytes) : Safe pageSize (fun descent => ∀ idx child,
      descent = CowBTree.Descent.internal idx child -> child < 2 ^ 64)
      (ask fun tree => CowBTree.descend (tree.pages backing.committed) id key) := by
  refine ask_safe fun self descent sound told idx child isInternal => ?_
  obtain ⟨node, read, told⟩ := bind_eq_ok told
  have nodeSound := sound.nodeAt committed read
  cases node with
  | leaf bytes entries =>
    cases told
    cases isInternal
  | internal bytes leftmost cells =>
    cases told
    cases isInternal
    obtain ⟨first, roomy, -⟩ := internal_sound_iff.mp nodeSound
    unfold CowBTree.childPointer CowBTree.childAt
    split
    · exact first
    · cases here : cells[CowBTree.childIndex bytes cells key - 1]? with
      | none => simp
      | some cell => exact (roomy cell (mem_of_getElem? here)).2

theorem single_sound (holds : Stored pageSize key stored) :
    (Node.leaf [] [{ key := .owned key, value := stored }]).Sound pageSize := by
  obtain ⟨ranged, cell⟩ := holds []
  refine leaf_sound_iff.mpr ⟨?_, ?_⟩
  · intro entry member
    rw [mem_singleton.mp member]
    exact ⟨ranged, cell⟩
  · have size := holds.size_le
    simp only [leafSize, map_cons, map_nil, sum_cons, sum_nil, length_singleton, keyBytes]
    omega

theorem insertInto_safe (least : 128 ≤ pageSize) {backing : Backing}
    (committed : backing.Sound pageSize) (fits : CowBTree.keyFits pageSize key = true)
    (addressable : value.length < 2 ^ 64) (depth : Nat) (small : id < 2 ^ 64) :
    Safe pageSize (OutcomeFits pageSize) (insertInto backing key value depth id) := by
  induction depth generalizing id with
  | zero => exact refused_safe _
  | succ depth ih =>
    unfold insertInto
    split
    · refine (storeValue_safe backing fits addressable).bind fun stored holds => ?_
      refine (alloc_safe backing).bind fun newId newSmall => ?_
      exact (hold_safe newId (single_sound holds)).bind fun _ _ => .pure newSmall
    · refine (descend_safe committed id key).bind fun descent goes => ?_
      cases descent with
      | internal idx child =>
        refine (ih (goes idx child rfl)).bind fun outcome outcomeFits => ?_
        refine (takeNodeForWrite_safe committed id).bind ?_
        rintro ⟨node, wasDirty⟩ sound
        cases node with
        | leaf bytes entries => exact refused_safe _
        | internal bytes leftmost cells =>
          exact absorbOutcome_safe least backing small wasDirty idx sound outcomeFits
      | leaf =>
        refine (storeValue_safe backing fits addressable).bind fun stored holds => ?_
        refine (takeNodeForWrite_safe committed id).bind ?_
        rintro ⟨node, wasDirty⟩ sound
        cases node with
        | internal bytes leftmost cells => exact refused_safe _
        | leaf bytes entries =>
          obtain ⟨roomy, size⟩ := leaf_sound_iff.mp sound
          obtain ⟨placed, grown⟩ := placeEntry_roomy holds roomy
          have cellFits := holds.size_le
          refine (settleLeaf_safe least backing small wasDirty placed (by omega)).bind
            fun outcome outcomeFits => ?_
          exact (freeOverflowChain_safe backing _).bind fun _ _ => .pure outcomeFits

theorem deleteFrom_safe {backing : Backing} (committed : backing.Sound pageSize) (key : Bytes)
    (depth : Nat) (small : id < 2 ^ 64) :
    Safe pageSize (· < 2 ^ 64) (deleteFrom backing key depth id) := by
  induction depth generalizing id with
  | zero => exact refused_safe _
  | succ depth ih =>
    unfold deleteFrom
    split
    · exact .pure (by decide)
    · refine (descend_safe committed id key).bind fun descent goes => ?_
      cases descent with
      | internal idx child =>
        refine (ih (goes idx child rfl)).bind fun newChild childSmall => ?_
        refine (takeNodeForWrite_safe committed id).bind ?_
        rintro ⟨node, wasDirty⟩ sound
        cases node with
        | leaf bytes entries => exact refused_safe _
        | internal bytes leftmost cells =>
          obtain ⟨firstSmall, roomy, size⟩ := internal_sound_iff.mp sound
          obtain ⟨first, replaced, same⟩ := replaceChild_roomy idx firstSmall childSmall roomy
          refine (slotFor_safe backing small wasDirty).bind fun newId newSmall => ?_
          exact (hold_safe newId (internal_sound_iff.mpr
            ⟨first, replaced, same.le.trans size⟩)).bind fun _ _ => .pure newSmall
      | leaf =>
        refine (takeNodeForWrite_safe committed id).bind ?_
        rintro ⟨node, wasDirty⟩ sound
        cases node with
        | internal bytes leftmost cells => exact refused_safe _
        | leaf bytes entries =>
          refine Stateful.Ends.through (· < 2 ^ 64) ?_ fun newId newSmall =>
            (freeOverflowChain_safe backing _).bind fun _ _ => .pure newSmall
          unfold settleRemoval
          split
          · exact (supersedeTaken_safe id wasDirty).bind fun _ _ => .pure (by decide)
          · refine (slotFor_safe backing small wasDirty).bind fun newId newSmall => ?_
            exact (hold_safe newId (dropEntry_roomy key sound)).bind fun _ _ => .pure newSmall

/-! ## Whole operations -/

theorem change_safe {update : Writer -> Writer}
    (same : ∀ self : Writer, (update self).pageSize = self.pageSize ∧
      (update self).dirty = self.dirty ∧ (update self).splits = self.splits)
    (numbered : ∀ self : Writer, self.Numbered -> (update self).Numbered) :
    Safe pageSize (fun _ => True) (Stateful.change update) := by
  refine .change (fun self sound => ⟨?_, numbered self sound.numbered, ?_, ?_⟩) trivial
  · exact (same self).1.trans sound.pageSize_eq
  · rw [(same self).2.1]
    exact sound.pages
  · rw [(same self).2.2]
    exact sound.splits

theorem beginTxn_safe : Safe pageSize (fun _ => True) (Stateful.change beginTxn) := by
  refine change_safe (fun self => ?_) fun self numbered => ?_
  · unfold beginTxn CowBTree.beginTxn
    split <;> exact ⟨rfl, rfl, rfl⟩
  · unfold beginTxn CowBTree.beginTxn
    split
    · exact numbered
    · exact ⟨numbered.root, numbered.nextPageId, numbered.root, numbered.nextPageId,
        numbered.candidates⟩

theorem growRoot_safe (least : 128 ≤ pageSize) (backing : Backing)
    (fits : OutcomeFits pageSize outcome) :
    Safe pageSize (fun _ => True) (growRoot backing outcome) := by
  have rooted {id : Nat} (small : id < 2 ^ 64) : Safe pageSize (fun _ => True)
      (Stateful.change fun self => { self with pendingRoot := id }) :=
    change_safe (fun _ => ⟨rfl, rfl, rfl⟩) fun _ numbered =>
      ⟨numbered.root, numbered.nextPageId, small, numbered.pendingNext, numbered.candidates⟩
  cases outcome with
  | replaced id => exact rooted fits
  | split left right separator =>
    obtain ⟨leftSmall, rightSmall, keyFits⟩ := fits
    refine (alloc_safe backing).bind fun id small => ?_
    refine (hold_safe id (internal_sound_iff.mpr ⟨leftSmall, ?_, ?_⟩)).bind fun _ _ => rooted small
    · intro cell member
      rw [mem_singleton.mp member]
      exact ⟨keyFits, rightSmall⟩
    · have room := (CowBTree.keyFits_iff _ _).mp keyFits
      simp only [internalSize, headerSize, slotSize, internalCellSize, map_cons,
        map_nil, sum_cons, sum_nil, length_singleton, keyBytes]
      omega

theorem noted_safe (key : Bytes) (op : Option Bytes) : Safe pageSize (fun _ => True)
    (Stateful.change fun self => { self with pendingOps := self.pendingOps.insert key op }) :=
  change_safe (fun _ => ⟨rfl, rfl, rfl⟩) fun _ numbered => ⟨numbered.root,
    numbered.nextPageId, numbered.pendingRoot, numbered.pendingNext, numbered.candidates⟩

theorem put_safe (least : 128 ≤ pageSize) {backing : Backing} (committed : backing.Sound pageSize)
    (key : Bytes) (addressable : value.length < 2 ^ 64) :
    Safe pageSize (fun _ => True) (put backing key value) := by
  unfold put
  refine Stateful.Ends.through (· = pageSize) (.gets fun _ sound => sound.pageSize_eq) ?_
  rintro pageSize rfl
  split
  · exact refused_safe _
  · rename_i fits
    refine beginTxn_safe.bind fun _ _ => ?_
    refine Stateful.Ends.through (Writer.Sound pageSize) (.gets fun _ sound => sound)
      fun self sound => ?_
    refine (insertInto_safe least committed (not_not.mp fits) addressable _
      sound.numbered.pendingRoot).bind fun outcome outcomeFits => ?_
    exact (growRoot_safe least backing outcomeFits).bind fun _ _ => noted_safe key _

theorem delete_safe {backing : Backing} (committed : backing.Sound pageSize) (key : Bytes) :
    Safe pageSize (fun _ => True) (delete backing key) := by
  unfold delete
  refine beginTxn_safe.bind fun _ _ => ?_
  refine Stateful.Ends.through (Writer.Sound pageSize) (.gets fun _ sound => sound)
    fun self sound => ?_
  refine (deleteFrom_safe committed key _ sound.numbered.pendingRoot).bind fun newRoot small => ?_
  exact change_safe (fun _ => ⟨rfl, rfl, rfl⟩) fun _ numbered => ⟨numbered.root,
    numbered.nextPageId, small, numbered.pendingNext, numbered.candidates⟩

theorem writeRows_safe (least : 128 ≤ pageSize) {backing : Backing}
    (committed : backing.Sound pageSize) (seq : Nat) (freed : Option Nat)
    (consumed : Option (Nat × Nat)) :
    Safe pageSize (fun _ => True) (writeRows backing seq freed consumed) := by
  unfold writeRows
  cases consumed with
  | none =>
    cases freed with
    | none => exact .pure trivial
    | some id => exact (put_safe least committed _ (by decide)).bind fun _ _ => .pure trivial
  | some row =>
    cases freed with
    | none => exact delete_safe committed _
    | some id =>
      exact (put_safe least committed _ (by decide)).bind fun _ _ => delete_safe committed _

theorem popNotes_safe : Safe pageSize (fun _ => True) popNotes :=
  .of_ok (fun _ => rfl) fun _ sound => ⟨⟨sound.pageSize_eq, ⟨sound.numbered.root,
    sound.numbered.nextPageId, sound.numbered.pendingRoot, sound.numbered.pendingNext,
    sound.numbered.candidates⟩, sound.pages, sound.splits⟩, trivial⟩

theorem finalizeLoop_safe (least : 128 ≤ pageSize) {backing : Backing}
    (committed : backing.Sound pageSize) (seq turns : Nat) :
    Safe pageSize (fun _ => True) (finalizeLoop backing seq turns) := by
  induction turns with
  | zero =>
    unfold finalizeLoop
    refine popNotes_safe.bind fun notes _ => ?_
    simp only
    split
    · exact .pure trivial
    · exact Stateful.Ends.through (fun _ => True) (.gets fun _ _ => trivial)
        fun _ _ => refused_safe _
  | succ turns ih =>
    unfold finalizeLoop
    refine popNotes_safe.bind fun notes _ => ?_
    simp only
    split
    · exact .pure trivial
    · exact (writeRows_safe least committed seq _ _).bind fun _ _ => ih

theorem materializeDirty_ends (most : pageSize < 2 ^ 16) :
    materializeDirty.Ends (Writer.Sound pageSize) (fun _ => True) fun _ => False := by
  unfold materializeDirty
  refine Stateful.Ends.through (Writer.Sound pageSize) (.gets fun _ sound => sound)
    fun self sound => ?_
  refine .forM fun page member => ?_
  obtain ⟨id, page⟩ := page
  have pageSound := sound.pages id page (Std.TreeMap.mem_toList_iff_getElem?_eq_some.mp member)
  cases page with
  | encoded bytes => exact .pure trivial
  | decoded node =>
    obtain ⟨bytes, encoded, isSound⟩ := Node.Sound.encodes pageSound most
    unfold materializePage
    rw [sound.pageSize_eq]
    refine Stateful.Ends.through (PageSound pageSize) ?_ fun bytes isSound =>
      .change (fun state kept => kept.insert id (.encoded bytes) isSound) trivial
    refine .tryGets ?_ ?_
    · intro _ found _ told
      rw [encoded] at told
      cases told
      exact isSound
    · intro _ error _ told
      rw [encoded] at told
      cases told

end Writer

/-! ## Every transaction -/

/-- The handles of a file, and every page one of them has published. -/
structure Handles where
  written : Set Bytes
  writers : Nat -> Writer

namespace Handles

def set (handles : Handles) (index : Nat) (writer : Writer) : Handles :=
  { handles with writers := Function.update handles.writers index writer }

end Handles

/-- A committed page that reads as a node is a page some handle published. -/
def Backing.Within (pageSize : Nat) (written : Set Bytes) (backing : Backing) : Prop :=
  ∀ id node, backing.committed.node id = .ok node ->
    ∃ bytes ∈ written, decode pageSize bytes = .ok node

/-- A handle with no page of its own: one just opened, rolled back, brought to a newer
root, or at the end of a commit. -/
structure Writer.Fresh (pageSize : Nat) (writer : Writer) : Prop where
  pageSize_eq : writer.pageSize = pageSize
  numbered : writer.Numbered
  dirty : writer.dirty = ∅

/-- What a handle is asked to do. A commit finalizes the free list, encodes the pages,
publishes them and starts afresh; it may fail between any two of these. -/
inductive WriteCall where
  | put (key value : Bytes)
  | delete (key : Bytes)
  | finalizeFreeList (seq : Nat)
  | materializeDirty
  | publish
  | renew
  deriving DecidableEq, Repr

/-- The pages of a handle that are encoded. -/
def Writer.encodedPages (self : Writer) : Set Bytes :=
  {bytes | ∃ id : Nat, self.dirty[id]? = some (.encoded bytes)}

/-- One call on one handle, which sees some of the published pages as committed. -/
def Handles.Step (pageSize : Nat) (before : Handles) : Nat × WriteCall -> Handles -> Prop
  | (index, .put key value), after => ∃ backing : Backing,
      backing.Within pageSize before.written ∧ value.length < 2 ^ 64 ∧
        after = before.set index (Writer.put backing key value (before.writers index)).2
  | (index, .delete key), after => ∃ backing : Backing,
      backing.Within pageSize before.written ∧
        after = before.set index (Writer.delete backing key (before.writers index)).2
  | (index, .finalizeFreeList seq), after => ∃ backing : Backing,
      backing.Within pageSize before.written ∧
        after = before.set index (Writer.finalizeFreeList backing seq (before.writers index)).2
  | (index, .materializeDirty), after =>
    after = before.set index (Writer.materializeDirty (before.writers index)).2
  | (index, .publish), after =>
    after = { before with written := before.written ∪ (before.writers index).encodedPages }
  | (index, .renew), after => ∃ fresh : Writer, fresh.Fresh pageSize ∧
      fresh.splits = (before.writers index).splits ∧ after = before.set index fresh

/-- Any calls on any handles of a file of pages of one size. -/
def recycling (pageSize : Nat) : System Handles (Nat × WriteCall) where
  Initial handles := handles.written = ∅ ∧
    ∀ index, (handles.writers index).Fresh pageSize ∧ (handles.writers index).splits = []
  Step := Handles.Step pageSize

/-- Every published page is sound, and so is every handle. -/
structure Handles.Sound (pageSize : Nat) (handles : Handles) : Prop where
  written : ∀ bytes ∈ handles.written, PageSound pageSize bytes
  writers : ∀ index, (handles.writers index).Sound pageSize

variable {handles after : Handles}

theorem Backing.Within.sound {backing : Backing} (within : backing.Within pageSize handles.written)
    (sound : handles.Sound pageSize) : backing.Sound pageSize := by
  intro id node read
  obtain ⟨bytes, member, decoded⟩ := within id node read
  exact sound.written bytes member node decoded

theorem Writer.Fresh.sound (fresh : writer.Fresh pageSize)
    (splits : ∀ halves ∈ writer.splits, HalvesFit pageSize halves) : writer.Sound pageSize where
  pageSize_eq := fresh.pageSize_eq
  numbered := fresh.numbered
  pages := by simp [fresh.dirty]
  splits := splits

theorem Handles.Sound.set (sound : handles.Sound pageSize) (index : Nat)
    (writerSound : writer.Sound pageSize) : (handles.set index writer).Sound pageSize where
  written := sound.written
  writers other := by
    unfold Handles.set
    rcases eq_or_ne other index with rfl | different
    · simpa using writerSound
    · simpa [Function.update_of_ne different] using sound.writers other

section

variable (least : 128 ≤ pageSize) (most : pageSize ≤ 65535)

include least most

theorem Handles.Sound.step (sound : handles.Sound pageSize) {call : Nat × WriteCall}
    (step : handles.Step pageSize call after) : after.Sound pageSize := by
  obtain ⟨index, call⟩ := call
  have here := sound.writers index
  cases call with
  | put key value =>
    obtain ⟨backing, within, addressable, rfl⟩ := step
    exact sound.set index (Writer.put_safe least (within.sound sound) key addressable _ here).1
  | delete key =>
    obtain ⟨backing, within, rfl⟩ := step
    exact sound.set index (Writer.delete_safe (within.sound sound) key _ here).1
  | finalizeFreeList seq =>
    obtain ⟨backing, within, rfl⟩ := step
    exact sound.set index (Writer.finalizeLoop_safe least (within.sound sound) seq 100000 _ here).1
  | materializeDirty =>
    obtain rfl : after = _ := step
    exact sound.set index (Writer.materializeDirty_ends (by omega) _ here).1
  | publish =>
    obtain rfl : after = _ := step
    refine ⟨?_, sound.writers⟩
    rintro bytes (old | ⟨id, held⟩)
    · exact sound.written bytes old
    · exact here.pages id (.encoded bytes) held
  | renew =>
    obtain ⟨fresh, isFresh, same, rfl⟩ := step
    exact sound.set index (isFresh.sound (same ▸ here.splits))

theorem sound_of_runs {calls : List (Nat × WriteCall)}
    (run : (recycling pageSize).Runs calls handles) :
    handles.Sound pageSize := by
  refine run.invariant (fun _ handles => handles.Sound pageSize) ?_ ?_
  · rintro start ⟨none, fresh⟩
    refine ⟨by simp [none], fun index => (fresh index).1.sound ?_⟩
    simp [(fresh index).2]
  · intro calls current call next sound step
    exact sound.step least most step

end

/-- Every page a handle holds as cells fits, and so do the halves of every split it made. -/
structure NodesFit (pageSize : Nat) (writer : Writer) : Prop where
  held : ∀ (id : Nat) node, writer.dirty[id]? = some (.decoded node) -> node.size ≤ pageSize
  halves : ∀ halves ∈ writer.splits, HalvesFit pageSize halves

theorem Writer.Sound.nodesFit (sound : writer.Sound pageSize) : NodesFit pageSize writer where
  held id _ held := (sound.pages id _ held).size_le
  halves := sound.splits

/-- What the splits of a handle come to: its nodes fit, `insert_into` from any page leaves
nodes that fit and indexes nothing out of bounds, and every page it holds encodes. -/
structure SplitsFit (pageSize : Nat) (written : Set Bytes) (writer : Writer) : Prop where
  nodes : NodesFit pageSize writer
  inserts : ∀ backing : Backing, backing.Within pageSize written ->
    ∀ (key value : Bytes) (depth id : Nat), CowBTree.keyFits pageSize key = true ->
      value.length < 2 ^ 64 -> id < 2 ^ 64 ->
        NodesFit pageSize (Writer.insertInto backing key value depth id writer).2 ∧
          (Writer.insertInto backing key value depth id writer).1 ≠ .error .outOfBounds
  materializes : (Writer.materializeDirty writer).1 = .ok ()

/-- In every transaction of every run, every split fits. -/
theorem every_split_fits (least : 128 ≤ pageSize) (most : pageSize ≤ 65535)
    {calls : List (Nat × WriteCall)} (run : (recycling pageSize).Runs calls handles)
    (index : Nat) : SplitsFit pageSize handles.written (handles.writers index) := by
  have sound := sound_of_runs least most run
  have here := sound.writers index
  refine ⟨here.nodesFit, ?_, ?_⟩
  · intro backing within key value depth id fits addressable small
    obtain ⟨kept, ended⟩ := Writer.insertInto_safe least (within.sound sound) fits addressable
      depth small (handles.writers index) here
    refine ⟨kept.nodesFit, fun stopped => ?_⟩
    rw [stopped] at ended
    exact ended rfl
  · obtain ⟨-, ended⟩ := Writer.materializeDirty_ends (by omega) (handles.writers index) here
    cases told : (Writer.materializeDirty (handles.writers index)).1 with
    | ok done => rfl
    | error error =>
      rw [told] at ended
      exact ended.elim

/-- A file with no committed page. -/
def Backing.blank : Backing where
  committed := ⟨fun _ => .error (.corrupt "no page"), fun _ => .error (.corrupt "no page")⟩
  commitPoint := none
  minReaderSeq := none

/-- A handle just opened on a file with no committed page. -/
def Writer.blank (pageSize : Nat) : Writer where
  toCowBTree := CowBTree.empty pageSize
  reuseEnabled := true
  freeCandidates := []
  freeScanCursor := none
  freeListExhausted := false
  freedThisTxn := []
  consumedThisTxn := []
  consumedEverThisTxn := []
  splits := []

theorem Writer.fresh_blank (pageSize : Nat) : (Writer.blank pageSize).Fresh pageSize where
  pageSize_eq := rfl
  numbered := by
    refine ⟨?_, ?_, ?_, ?_, by simp [Writer.blank]⟩ <;> simp [Writer.blank, CowBTree.empty]
  dirty := rfl

/-- The first handle after three rows that do not fit one page. -/
def threeRows : Handles :=
  [1, 2, 3].foldl (fun handles row => handles.set 0
    (Writer.put .blank [row] (List.replicate 36 row) (handles.writers 0)).2)
      ⟨∅, fun _ => .blank 128⟩

theorem every_split_fits_threeRows : (threeRows.writers 0).splits.length = 1 ∧
      SplitsFit 128 threeRows.written (threeRows.writers 0) := by
  have starts : (recycling 128).Runs [] ⟨∅, fun _ => .blank 128⟩ :=
    ⟨_, ⟨rfl, fun _ => ⟨Writer.fresh_blank 128, rfl⟩⟩, .refl⟩
  have puts {calls : List (Nat × WriteCall)} {handles : Handles}
      (run : (recycling 128).Runs calls handles) (row : UInt8) :
      (recycling 128).Runs (calls ++ [(0, .put [row] (List.replicate 36 row))])
        (handles.set 0 (Writer.put .blank [row] (List.replicate 36 row) (handles.writers 0)).2) := by
    obtain ⟨start, initial, steps⟩ := run
    have within : Backing.blank.Within 128 handles.written := fun _ _ read => by cases read
    have short : (List.replicate 36 row).length < 2 ^ 64 := by rw [length_replicate]; decide
    exact ⟨start, initial, .step steps ⟨.blank, within, short, rfl⟩⟩
  refine ⟨by decide +kernel, ?_⟩
  exact every_split_fits (by decide) (by decide) (puts (puts (puts starts 1) 2) 3) 0

end InlaySql.Btree
