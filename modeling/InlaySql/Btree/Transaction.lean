import InlaySql.Btree.Counter
import InlaySql.Btree.Delete
import InlaySql.Btree.Read

/-!
# The open transaction

`Sound` is the invariant of a handle between two calls: the root it reads is
well-formed and stands for some entries, and its dirty pages are tidy. `put` and
`delete` overlay one key, reads answer from the entries, and encoding the dirty
pages changes nothing a read can see.
-/

namespace InlaySql.Btree

open List Lib Wal

namespace CowBTree

/-- What a handle reads is well-formed and stands for `entries`. -/
structure Sound (committed : Pages) (tree : CowBTree) (entries : List (Bytes × Bytes)) : Prop where
  small : 128 ≤ tree.pageSize
  large : tree.pageSize < 2 ^ 16
  idle : tree.hasPending = false -> ∀ id : Nat, tree.dirty[id]? = none
  tidy : tree.Tidy
  positive : 0 < tree.readNext
  subtree : ∃ height rests,
    Subtree tree.pageSize (tree.readPages committed) height tree.readRoot none none entries rests ∧
      ∀ id ∈ rests, id < tree.readNext

section Sound

variable {committed : Pages} {tree : CowBTree} {entries : List (Bytes × Bytes)}

theorem Sound.fenced (sound : Sound committed tree entries) : Fenced none none entries := by
  obtain ⟨height, rests, subtree, -⟩ := sound.subtree
  exact subtree.fenced

theorem within_none (key : Bytes) : Within none none key := by simp [Within]

section

variable (sound : Sound committed tree entries)

include sound

theorem Sound.shallow : ∃ height rests,
    Subtree tree.pageSize (tree.readPages committed) height tree.readRoot none none entries rests ∧
      (∀ id ∈ rests, id < tree.readNext) ∧ height < tree.readNext + 1 := by
  obtain ⟨height, rests, subtree, issued⟩ := sound.subtree
  refine ⟨rests.card, rests, subtree.card_height, issued, ?_⟩
  have within : rests ⊆ Finset.range tree.readNext := fun id member =>
    Finset.mem_range.mpr (issued id member)
  have count := Finset.card_le_card within
  rw [Finset.card_range] at count
  omega

theorem Sound.wide : overflowHeaderSize < tree.pageSize := by
  have := sound.small
  simp only [overflowHeaderSize]
  omega

theorem Sound.get_eq (key : Bytes) :
    ∃ result, tree.get committed key = .ok result ∧ Answers entries key result := by
  obtain ⟨height, rests, subtree, -, deep⟩ := sound.shallow
  exact descendGet_spec sound.wide subtree (within_none key) deep

theorem Sound.scanRangeFrom_eq (bounds : WalkBounds) :
    tree.scanRangeFrom committed bounds = .ok (bounds.clip (bounds.wanted entries)) := by
  obtain ⟨height, rests, subtree, -, deep⟩ := sound.shallow
  have walked : walk tree.pageSize (tree.readPages committed) bounds tree.readDepth tree.readRoot
      [] = .ok (bounds.clip ([] ++ bounds.wanted entries)) :=
    walk_spec sound.wide subtree WalkBounds.clip_nil deep
  unfold scanRangeFrom
  split
  · rename_i nothing
    rcases nothing with isZero | isEmpty
    · simp [WalkBounds.clip, isZero]
    · rw [WalkBounds.wanted_of_stop_le isEmpty, WalkBounds.clip_nil]
  · exact walked

theorem Sound.scan_eq : tree.scan committed = .ok entries := by
  rw [scan, sound.scanRangeFrom_eq]
  have all : ∀ entry ∈ entries,
      (WalkBounds.mk [] (prefixUpperBound []) none none).admits entry.1 = true := by
    intro entry _
    rw [WalkBounds.admits_iff]
    exact ⟨not_lt.mp (not_lt_nil _), by simp [prefixUpperBound], by simp⟩
  rw [WalkBounds.wanted, filter_eq_self.mpr all]
  rfl

end

end Sound

/-! ## Writes -/

section Write

variable {committed : Pages} {tree : CowBTree} {entries : List (Bytes × Bytes)} {key : Bytes}

theorem pages_of_clean (committed : Pages) (tree : CowBTree)
    (none : ∀ id : Nat, tree.dirty[id]? = none) : tree.pages committed = committed := by
  have node : tree.nodeAt committed = committed.node := by
    funext id
    rw [nodeAt, none id]
  have overflow : tree.readOverflowPage committed = committed.overflow := by
    funext id
    rw [readOverflowPage, none id]
  rw [pages, node, overflow]

theorem Sound.beginTxn (sound : Sound committed tree entries) :
    Sound committed tree.beginTxn entries ∧ tree.beginTxn.hasPending = true := by
  unfold CowBTree.beginTxn
  by_cases pending : tree.hasPending = true
  · rw [if_pos pending]
    exact ⟨sound, pending⟩
  · rw [if_neg pending]
    have isIdle : tree.hasPending = false := by simpa using pending
    have none := sound.idle isIdle
    have positive := sound.positive
    obtain ⟨height, rests, subtree, issued⟩ := sound.subtree
    simp only [readNext, isIdle] at positive issued
    refine ⟨⟨sound.small, sound.large, by simp, ?_, positive, height, rests, ?_, issued⟩, rfl⟩
    · exact ⟨fun id page found => by simp [none id] at found,
        fun id node found => by simp [none id] at found,
        fun id bytes found => by simp [none id] at found⟩
    · let opened : CowBTree := { tree with
        pendingRoot := tree.root, pendingNext := tree.nextPageId, hasPending := true }
      have clean := pages_of_clean committed opened none
      change Subtree tree.pageSize (opened.pages committed) height tree.root _ _ entries rests
      rw [clean]
      simpa [readPages, readRoot, isIdle] using subtree

theorem Sound.opened (sound : Sound committed tree entries) (pending : tree.hasPending = true) :
    ∃ height rests, Subtree tree.pageSize (tree.pages committed) height tree.pendingRoot none none
      entries rests ∧ (∀ id ∈ rests, id < tree.pendingNext) ∧ height < tree.depth := by
  obtain ⟨height, rests, subtree, issued, deep⟩ := sound.shallow
  simp only [readPages, readRoot, readNext, pending, if_true] at subtree issued deep
  exact ⟨height, rests, subtree, issued, deep⟩

theorem sound_of_opened {height : Nat} {rests : Finset Nat} (small : 128 ≤ tree.pageSize)
    (large : tree.pageSize < 2 ^ 16) (pending : tree.hasPending = true) (tidy : tree.Tidy)
    (positive : 0 < tree.pendingNext)
    (subtree : Subtree tree.pageSize (tree.pages committed) height tree.pendingRoot none none
      entries rests) (issued : ∀ id ∈ rests, id < tree.pendingNext) :
    Sound committed tree entries := by
  refine ⟨small, large, by simp [pending], tidy, by simpa [readNext, pending] using positive,
    height, rests, ?_, by simpa [readNext, pending] using issued⟩
  simpa only [readPages, readRoot, pending, if_true] using subtree

theorem Sound.begun (sound : Sound committed tree entries) :
    tree.beginTxn.pageSize = tree.pageSize ∧ tree.beginTxn.pendingNext = tree.readNext ∧
      tree.beginTxn.hasPending = true ∧ 0 < tree.beginTxn.pendingNext ∧
      tree.beginTxn.Tidy ∧ ∃ height rests,
        Subtree tree.pageSize (tree.beginTxn.pages committed) height tree.beginTxn.pendingRoot none
          none entries rests ∧ (∀ id ∈ rests, id < tree.beginTxn.pendingNext) ∧
        height < tree.beginTxn.depth := by
  obtain ⟨begun, pending⟩ := sound.beginTxn
  have size : tree.beginTxn.pageSize = tree.pageSize := by
    unfold CowBTree.beginTxn
    split <;> rfl
  have next : tree.beginTxn.pendingNext = tree.readNext := tree.beginTxn_readNext
  refine ⟨size, next, pending, next ▸ sound.positive, begun.tidy, ?_⟩
  rw [<- size]
  exact begun.opened pending

theorem growRoot_spec {before after : CowBTree} {rests : Finset Nat} {height : Nat}
    {outcome : InsertOutcome} {inserted : List (Bytes × Bytes)} (grown : Grown before after rests)
    (positive : 0 < before.pendingNext)
    (fits : ∀ cell ∈ outcome.cells, keyFits before.pageSize cell.1 = true)
    (issued : ∀ id ∈ rests, id < before.pendingNext)
    (yields : Yields committed before after rests height none none outcome.child outcome.cells
      inserted) :
    (after.growRoot outcome).Tidy ∧ ∃ taller newRests,
      Subtree before.pageSize ((after.growRoot outcome).pages committed) taller
        (after.growRoot outcome).pendingRoot none none inserted newRests ∧
      ∀ id ∈ newRests, id < (after.growRoot outcome).pendingNext := by
  obtain ⟨tidy, newRests, spine, origin⟩ := yields
  have newIssued : ∀ id ∈ newRests, id < after.pendingNext := fun id member =>
    (origin id member).elim (fun old => (issued id old).trans_le grown.next_le) fun new => new.2
  cases outcome with
  | replaced id =>
    cases spine with
    | last subtree => exact ⟨⟨tidy.below, tidy.decoded, tidy.encoded⟩, height, newRests, subtree,
        newIssued⟩
  | split left right separator =>
    let cells : List Separator := [{ key := .owned separator, child := right }]
    have slot := alloc_slotted after
    have afterPositive : 0 < after.pendingNext := positive.trans_le grown.next_le
    have separatorFits := fits (separator, right) (by simp [InsertOutcome.cells])
    have size : internalSize [] cells ≤ after.pageSize := by
      have bound := (keyFits_iff _ _).mp separatorFits
      simp only [cells, internalSize, internalCellSize, map_cons, map_nil,
        sum_cons, sum_nil, length_cons, length_nil, headerSize, slotSize,
        keyBytes, grown.pageSize] at bound ⊢
      omega
    rw [<- grown.pageSize] at spine
    have names : (Node.internal [] left cells).view.Below after.pendingNext :=
      inner_below after spine newIssued afterPositive
    have root := (slot after.pendingNext).put_inner committed afterPositive.ne' size
      (by simpa [cells, Separator.view, keyBytes, grown.pageSize] using separatorFits) spine
      newIssued (fun member => absurd (newIssued _ member) (lt_irrefl _))
    have rootTidy := (slot 0).put_tidy tidy afterPositive (.internal [] left cells) size
      (names.mono (slot 0).next_le)
    refine ⟨⟨rootTidy.below, rootTidy.decoded, rootTidy.encoded⟩, height + 1, _,
      grown.pageSize ▸ root, ?_⟩
    intro id member
    rcases Finset.mem_insert.mp member with rfl | old
    · exact Nat.lt_succ_self _
    · exact (newIssued id old).trans (Nat.lt_succ_self _)

theorem growRoot_fields (after : CowBTree) (outcome : InsertOutcome) :
    (after.growRoot outcome).pageSize = after.pageSize ∧
      after.pendingNext ≤ (after.growRoot outcome).pendingNext ∧
      ∀ id < after.pendingNext, id ∈ (after.growRoot outcome).dirty -> id ∈ after.dirty := by
  cases outcome with
  | replaced id => exact ⟨rfl, le_rfl, fun _ _ member => member⟩
  | split left right separator =>
    refine ⟨rfl, Nat.le_succ _, ?_⟩
    intro id old member
    rw [Std.TreeMap.mem_iff_isSome_getElem?] at member ⊢
    change ((after.allocPage.2.putNode after.pendingNext _).dirty[id]?).isSome = true at member
    rwa [putNode_sets, if_neg old.ne] at member

theorem beginTxn_dirty (tree : CowBTree) : tree.beginTxn.dirty = tree.dirty := by
  unfold CowBTree.beginTxn
  split <;> rfl

theorem Sound.put_eq (sound : Sound committed tree entries) {value : Bytes}
    (fits : keyFits tree.pageSize key = true)
    (short : value.length ≤ maxRecordLen tree.pageSize) :
    ∃ after, tree.put committed key value = .ok after ∧
      (∀ id < tree.readNext, id ∈ after.dirty -> id ∈ tree.dirty) ∧
      (after.readNext ≤ 2 ^ 64 -> ∃ placed, Sound committed after placed ∧
        Overlay entries key (some value) placed) := by
  obtain ⟨size, next, pending, positive, tidy, height, rests, subtree, issued, deep⟩ := sound.begun
  have accepted := fits
  rw [<- size] at fits short subtree
  obtain ⟨outcome, inserted, isInserted, grown, separatorFits, yields⟩ :=
    insertInto_spec fits (size ▸ sound.large) short positive subtree issued (within_none key) deep
  obtain ⟨-, nextGrown, mineGrown⟩ := growRoot_fields inserted outcome
  let after : CowBTree := { inserted.growRoot outcome with
    pendingOps := (inserted.growRoot outcome).pendingOps.insert key (some value) }
  have isAfter : tree.put committed key value = .ok after := by
    simp only [put, accepted]
    rw [isInserted]
    rfl
  have wrote := put_wrote isAfter
  refine ⟨after, isAfter, ?_, ?_⟩
  · intro id old member
    rw [<- next] at old
    rw [<- beginTxn_dirty]
    exact grown.mine id old (mineGrown id (old.trans_le grown.next_le) member)
  · intro room
    have nextLe := wrote.next_le
    rw [readNext_of_pending wrote.hasPending] at room nextLe
    obtain ⟨taller, placed, yielded, overlay⟩ := yields (nextGrown.trans room) tidy
    obtain ⟨rootTidy, tallest, newRests, root, newIssued⟩ :=
      growRoot_spec grown positive separatorFits issued yielded
    have afterSize := wrote.pageSize
    rw [size, <- afterSize] at root
    exact ⟨placed, sound_of_opened (afterSize ▸ sound.small) (afterSize ▸ sound.large)
      wrote.hasPending ⟨rootTidy.below, rootTidy.decoded, rootTidy.encoded⟩
      (sound.positive.trans_le nextLe) root newIssued, overlay⟩

theorem Sound.delete_eq (sound : Sound committed tree entries) (key : Bytes) :
    ∃ after, tree.delete committed key = .ok after ∧
      (∀ id < tree.readNext, id ∈ after.dirty -> id ∈ tree.dirty) ∧
      ∃ dropped, Sound committed after dropped ∧ Overlay entries key none dropped := by
  obtain ⟨size, next, pending, positive, tidy, height, rests, subtree, issued, deep⟩ := sound.begun
  rw [<- size] at subtree
  obtain ⟨newRoot, deleted, isDeleted, grown, yields⟩ :=
    deleteFrom_spec (size ▸ sound.large) subtree issued (within_none key) deep
  obtain ⟨taller, dropped, ⟨newTidy, newRests, spine, origin⟩, overlay⟩ := yields tidy
  let after : CowBTree := { deleted with
    pendingRoot := newRoot, pendingOps := deleted.pendingOps.insert key none }
  have isAfter : tree.delete committed key = .ok after := by
    simp only [delete]
    rw [isDeleted]
    rfl
  have wrote := delete_wrote isAfter
  refine ⟨after, isAfter, ?_, dropped, ?_, overlay⟩
  · intro id old member
    rw [<- next] at old
    rw [<- beginTxn_dirty]
    exact grown.mine id old member
  · cases spine with
    | last root =>
      have nextLe := wrote.next_le
      rw [readNext_of_pending wrote.hasPending] at nextLe
      refine sound_of_opened (wrote.pageSize ▸ sound.small) (wrote.pageSize ▸ sound.large)
        wrote.hasPending ⟨newTidy.below, newTidy.decoded, newTidy.encoded⟩
        (sound.positive.trans_le nextLe) (by
          rw [wrote.pageSize, <- size]
          exact root) ?_
      intro id member
      exact (origin id member).elim (fun old => (issued id old).trans_le grown.next_le)
        fun new => new.2

end Write

/-! ## Encoding the dirty pages -/

section Materialize

theorem materialize_loop {pageSize : Nat} (pages : List (Nat × DirtyPage))
    (distinct : pages.Pairwise fun first second => first.1 ≠ second.1)
    (encodes : ∀ id node, (id, DirtyPage.decoded node) ∈ pages ->
      ∃ bytes, encodeNode pageSize node = .ok bytes) (start : Std.TreeMap Nat DirtyPage) :
    ∃ done, pages.foldlM (materializePage pageSize) start = .ok done ∧
      (∀ id : Nat, (∀ node, (id, DirtyPage.decoded node) ∉ pages) -> done[id]? = start[id]?) ∧
      ∀ id node bytes, (id, DirtyPage.decoded node) ∈ pages → encodeNode pageSize node = .ok bytes →
        done[id]? = some (.encoded bytes) := by
  induction pages generalizing start with
  | nil => exact ⟨start, rfl, fun _ _ => rfl, by simp⟩
  | cons page pages ih =>
    obtain ⟨apart, distinctRest⟩ := pairwise_cons.mp distinct
    have encodesRest : ∀ id node, (id, DirtyPage.decoded node) ∈ pages ->
        ∃ bytes, encodeNode pageSize node = .ok bytes := fun id node member =>
      encodes id node (mem_cons_of_mem _ member)
    obtain ⟨id, content⟩ := page
    cases content with
    | encoded bytes =>
      obtain ⟨done, isDone, others, encoded⟩ := ih distinctRest encodesRest start
      refine ⟨done, isDone, ?_, ?_⟩
      · intro other absent
        exact others other fun node member => absent node (mem_cons_of_mem _ member)
      · intro other node bytes member
        exact encoded other node bytes (by simpa using member)
    | decoded node =>
      obtain ⟨bytes, isBytes⟩ := encodes id node (by simp)
      obtain ⟨done, isDone, others, encoded⟩ :=
        ih distinctRest encodesRest (start.insert id (.encoded bytes))
      have notLater : ∀ other, (id, DirtyPage.decoded other) ∉ pages := fun other member =>
        apart _ member rfl
      refine ⟨done, ?_, ?_, ?_⟩
      · rw [foldlM_cons]
        simp only [materializePage, isBytes]
        exact isDone
      · intro other absent
        have distinctIds : other ≠ id := by
          rintro rfl
          exact absent node (by simp)
        rw [others other fun node member => absent node (mem_cons_of_mem _ member),
          Std.TreeMap.getElem?_insert, if_neg]
        rw [Nat.compare_eq_eq]
        exact distinctIds.symm
      · intro other found foundBytes member isFound
        rcases mem_cons.mp member with here | later
        · obtain ⟨rfl, same⟩ := Prod.mk.inj here
          obtain rfl : found = node := by simpa using same
          obtain rfl : bytes = foundBytes := by
            rw [isBytes] at isFound
            exact Except.ok.inj isFound
          rw [others other notLater]
          simp
        · exact encoded other found foundBytes later isFound

variable {committed : Pages} {tree : CowBTree} {entries : List (Bytes × Bytes)}

/-- Encoding the dirty pages succeeds, leaves only encoded pages and changes nothing
a read can see. -/
theorem Tidy.materialize (committed : Pages) (tidy : tree.Tidy) (large : tree.pageSize < 2 ^ 16) :
    ∃ after, tree.materializeDirty = .ok after ∧ after = { tree with dirty := after.dirty } ∧
      (∀ (id : Nat) page, after.dirty[id]? = some page -> ∃ bytes : Bytes,
        page = .encoded bytes ∧ bytes.length = tree.pageSize ∧ id < tree.pendingNext ∧
          id ∈ tree.dirty) ∧
      (tree.pendingNext ≤ 2 ^ 64 -> ∀ ids,
        (tree.pages committed).Keeps (after.pages committed) ids) := by
  have listed : ∀ (id : Nat) page, (id, page) ∈ tree.dirty.toList ↔ tree.dirty[id]? = some page :=
    fun id page => Std.TreeMap.mem_toList_iff_getElem?_eq_some
  have encodes : ∀ (id : Nat) (node : Node), tree.dirty[id]? = some (.decoded node) ->
      ∃ bytes, encodeNode tree.pageSize node = .ok bytes ∧ bytes.length = tree.pageSize ∧
        (tree.pendingNext ≤ 2 ^ 64 -> ∃ decoded, decode tree.pageSize bytes = .ok decoded ∧
          decoded.Ranged ∧ decoded.view = node.view) := by
    intro id node found
    obtain ⟨fits, below⟩ := tidy.decoded id node found
    obtain ⟨bytes, isBytes, length, decodes⟩ := decode_encodeNode fits large
    exact ⟨bytes, isBytes, length, fun room => decodes (below.mono room)⟩
  obtain ⟨dirty, isDirty, others, encoded⟩ := materialize_loop tree.dirty.toList
    (Std.TreeMap.distinct_keys_toList.imp fun distinct same => distinct (by simp [same]))
    (fun id node member => by
      obtain ⟨bytes, isBytes, -⟩ := encodes id node ((listed id _).mp member)
      exact ⟨bytes, isBytes⟩) tree.dirty
  -- A page was cells and is now their encoding, or it is as it was.
  have cases : ∀ id : Nat, (∃ node bytes, tree.dirty[id]? = some (.decoded node) ∧
      encodeNode tree.pageSize node = .ok bytes ∧ dirty[id]? = some (.encoded bytes)) ∨
      (dirty[id]? = tree.dirty[id]? ∧ ∀ node, tree.dirty[id]? ≠ some (.decoded node)) := by
    intro id
    by_cases cells : ∃ node, tree.dirty[id]? = some (.decoded node)
    · obtain ⟨node, found⟩ := cells
      obtain ⟨bytes, isBytes, -⟩ := encodes id node found
      exact .inl ⟨node, bytes, found, isBytes, encoded id node bytes ((listed id _).mpr found)
        isBytes⟩
    · have none : ∀ node, tree.dirty[id]? ≠ some (.decoded node) := fun node found =>
        cells ⟨node, found⟩
      exact .inr ⟨others id fun node member => none node ((listed id _).mp member), none⟩
  have present : ∀ (id : Nat) page, tree.dirty[id]? = some page -> id ∈ tree.dirty := by
    intro id page found
    rw [Std.TreeMap.mem_iff_isSome_getElem?, found]
    rfl
  refine ⟨{ tree with dirty }, ?_, rfl, ?_, ?_⟩
  · rw [materializeDirty, isDirty]
    rfl
  · intro id page found
    rcases cases id with ⟨node, bytes, was, isBytes, isNow⟩ | ⟨same, none⟩
    · obtain ⟨sameBytes, isSame, length, -⟩ := encodes id node was
      obtain rfl : bytes = sameBytes := by
        rw [isBytes] at isSame
        exact Except.ok.inj isSame
      refine ⟨bytes, ?_, length, tidy.below id _ was, present id _ was⟩
      simp only [isNow] at found
      exact (Option.some.inj found).symm
    · simp only [same] at found
      cases page with
      | decoded node => exact absurd found (none node)
      | encoded bytes =>
        exact ⟨bytes, rfl, tidy.encoded id bytes found, tidy.below id _ found, present id _ found⟩
  · intro room ids id _
    rcases cases id with ⟨node, bytes, was, isBytes, isNow⟩ | ⟨same, none⟩
    · obtain ⟨sameBytes, isSame, length, decodes⟩ := encodes id node was
      obtain rfl : bytes = sameBytes := by
        rw [isBytes] at isSame
        exact Except.ok.inj isSame
      obtain ⟨decoded, isDecoded, ranged, sameView⟩ := decodes room
      refine ⟨?_, fun link found => ?_⟩
      · rintro view ⟨found, isFound, -, isView⟩
        simp only [pages, nodeAt, was, Except.ok.injEq] at isFound
        subst isFound
        exact ⟨decoded, by simp only [pages, nodeAt, isNow, isDecoded], ranged,
          sameView.trans isView⟩
      · simp only [pages, readOverflowPage, was, isBytes] at found
        simp only [pages, readOverflowPage, isNow]
        exact found
    · let now : CowBTree := { tree with dirty }
      have still : (now.pages committed).node id = (tree.pages committed).node id ∧
          (now.pages committed).overflow id = (tree.pages committed).overflow id :=
        pages_congr committed rfl same
      refine ⟨?_, fun link found => still.2.trans found⟩
      rintro view ⟨node, isNode, rest⟩
      exact ⟨node, still.1.trans isNode, rest⟩

theorem Sound.materialize (sound : Sound committed tree entries) (pending : tree.hasPending = true)
    (room : tree.pendingNext ≤ 2 ^ 64) :
    ∃ after, tree.materializeDirty = .ok after ∧ after = { tree with dirty := after.dirty } ∧
      (∀ (id : Nat) page, after.dirty[id]? = some page -> ∃ bytes : Bytes,
        page = .encoded bytes ∧ bytes.length = tree.pageSize ∧ id < tree.pendingNext ∧
          id ∈ tree.dirty) ∧
      Sound committed after entries := by
  obtain ⟨after, isAfter, only, encoded, keeps⟩ :=
    sound.tidy.materialize committed sound.large
  have size : after.pageSize = tree.pageSize := by rw [only]
  have next : after.pendingNext = tree.pendingNext := by rw [only]
  have root : after.pendingRoot = tree.pendingRoot := by rw [only]
  have stillPending : after.hasPending = true := by rw [only]; exact pending
  obtain ⟨height, rests, subtree, issued, -⟩ := sound.opened pending
  refine ⟨after, isAfter, only, encoded, ?_⟩
  refine sound_of_opened (size ▸ sound.small) (size ▸ sound.large) stillPending ⟨?_, ?_, ?_⟩
    (next ▸ ?_) (by rw [size, root]; exact subtree.frame (keeps room rests)) (next ▸ issued)
  · intro id page found
    obtain ⟨bytes, -, -, below, -⟩ := encoded id page found
    exact next ▸ below
  · intro id node found
    obtain ⟨bytes, isBytes, -⟩ := encoded id _ found
    simp at isBytes
  · intro id bytes found
    obtain ⟨sameBytes, isBytes, length, -⟩ := encoded id _ found
    obtain rfl : bytes = sameBytes := by simpa using isBytes
    rw [size, length]
  · simpa [readNext, pending] using sound.positive

theorem pages_written (tree : CowBTree) (area : Nat -> Bytes)
    (encoded : ∀ (id : Nat) page, tree.dirty[id]? = some page -> ∃ bytes, page = .encoded bytes) :
    Pages.ofArea tree.pageSize (tree.writeDirtyPages area) =
      tree.pages (Pages.ofArea tree.pageSize area) := by
  have read : ∀ id, decode tree.pageSize (tree.writeDirtyPages area id) =
        tree.nodeAt (Pages.ofArea tree.pageSize area) id ∧
      decodeOverflow tree.pageSize (tree.writeDirtyPages area id) =
        tree.readOverflowPage (Pages.ofArea tree.pageSize area) id := by
    intro id
    unfold writeDirtyPages nodeAt readOverflowPage
    cases found : tree.dirty[id]? with
    | none => exact ⟨rfl, rfl⟩
    | some page =>
      obtain ⟨bytes, rfl⟩ := encoded id page found
      exact ⟨rfl, rfl⟩
  rw [Pages.mk.injEq]
  exact ⟨funext fun id => (read id).1, funext fun id => (read id).2⟩

end Materialize

end CowBTree

/-! ## Committed roots -/

/-- The entries are exactly those of the map. -/
def Represents (entries : List (Bytes × Bytes)) (contents : Bytes -> Option Bytes) : Prop :=
  ∀ key value, (key, value) ∈ entries ↔ contents key = some value

theorem Represents.overlay {entries placed : List (Bytes × Bytes)} {key : Bytes}
    {contents : Bytes -> Option Bytes} {value : Option Bytes}
    (represents : Represents entries contents) (overlay : Overlay entries key value placed) :
    Represents placed (Function.update contents key value) := by
  intro other stored
  rw [overlay other stored, represents other stored]
  by_cases same : other = key
  · subst same
    simp
  · simp [same]

/-- The tree under `root` is well-formed, rests on pages below `next` and stands for
`contents`. -/
def Roots (pageSize : Nat) (pages : Pages) (next root : Nat) (contents : Bytes -> Option Bytes) :
    Prop :=
  ∃ height entries rests, Subtree pageSize pages height root none none entries rests ∧
    (∀ id ∈ rests, id < next) ∧ Represents entries contents

section Roots

variable {pageSize next root : Nat} {pages : Pages} {area later : Nat -> Bytes}
  {contents : Bytes -> Option Bytes}

theorem Roots.empty (pageSize : Nat) (pages : Pages) (next : Nat) :
    Roots pageSize pages next 0 fun _ => none :=
  ⟨0, [], ∅, .empty, by simp, by simp [Represents]⟩

theorem Roots.mono {more : Nat} (roots : Roots pageSize pages next root contents)
    (le : next ≤ more) : Roots pageSize pages more root contents := by
  obtain ⟨height, entries, rests, subtree, issued, represents⟩ := roots
  exact ⟨height, entries, rests, subtree, fun id member => (issued id member).trans_le le,
    represents⟩

theorem Roots.frame (roots : Roots pageSize (Pages.ofArea pageSize area) next root contents)
    (same : ∀ id < next, later id = area id) :
    Roots pageSize (Pages.ofArea pageSize later) next root contents := by
  obtain ⟨height, entries, rests, subtree, issued, represents⟩ := roots
  refine ⟨height, entries, rests, subtree.frame ?_, issued, represents⟩
  intro id member
  have kept := same id (issued id member)
  refine ⟨?_, ?_⟩
  · rintro view ⟨node, isNode, rest⟩
    exact ⟨node, by simpa only [Pages.ofArea, kept] using isNode, rest⟩
  · intro link isLink
    simpa only [Pages.ofArea, kept] using isLink

theorem Roots.getAt_eq (roots : Roots pageSize pages next root contents) (small : 128 ≤ pageSize)
    (key : Bytes) : CowBTree.getAt pageSize pages next root key = .ok (contents key) := by
  obtain ⟨height, entries, rests, subtree, issued, represents⟩ := roots
  have wide : overflowHeaderSize < pageSize := by
    simp only [overflowHeaderSize]
    omega
  have within : rests ⊆ Finset.range next := fun id member =>
    Finset.mem_range.mpr (issued id member)
  have deep : rests.card < next + 1 := by
    have count := Finset.card_le_card within
    rw [Finset.card_range] at count
    omega
  obtain ⟨result, isResult, answers⟩ :=
    CowBTree.descendGet_spec wide subtree.card_height (CowBTree.within_none key) deep
  have same : result = contents key := by
    apply Option.ext
    intro value
    exact (answers value).trans (represents key value)
  rw [CowBTree.getAt, isResult, same]

end Roots

end InlaySql.Btree
