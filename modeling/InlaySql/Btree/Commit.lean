import InlaySql.Btree.Metadata
import InlaySql.Btree.Transaction

/-!
# Committing a transaction

A commit compares the values its keys had under the handle's own root with those
under the committed one, and gives up when a row changed. Otherwise it throws its
pages away and replays its merged operations on the committed root, encodes the
pages that come of it and builds the record that carries them.

A step that fails says what it leaves the handle as.
-/

namespace InlaySql.Btree

open Lib Wal

namespace CowBTree

/-- The outcome of a step that leaves the handle as `self` when it fails. -/
def leaving {α : Type} (self : CowBTree) : Except Error α -> Except (Error × CowBTree) α
  | .ok value => .ok value
  | .error error => .error (error, self)

/-- Do one pending operation again. -/
def redo (committed : Pages) (self : CowBTree) : Bytes × Option Bytes -> Except Error CowBTree
  | (key, some value) => self.put committed key value
  | (key, none) => self.delete committed key

/-- The replay loop of `rebase_pending`. -/
def replay (committed : Pages) :
    CowBTree -> List (Bytes × Option Bytes) -> Except (Error × CowBTree) CowBTree
  | self, [] => .ok self
  | self, op :: ops => do
      let self <- self.leaving (self.redo committed op)
      replay committed self ops

/-- The conflict loop of `rebase_pending`: whether a key that is not merged has
another value under the committed root. -/
def conflicts (snapshot current : Bytes -> Except Error (Option Bytes)) :
    List Bytes -> Except Error Bool
  | [] => .ok false
  | key :: keys => do
      let was <- snapshot key
      let now <- current key
      if was ≠ now ∧ ¬ mergeableMetadataKey key then return true
      else conflicts snapshot current keys

/-- The handle moved to a committed state, its transaction gone. -/
def resetTo (self : CowBTree) (root next : Nat) : CowBTree :=
  { self with
    dirty := ∅, pendingOps := ∅, hasPending := false, root
    nextPageId := max next self.nextPageId
    pendingRoot := root, pendingNext := max next self.nextPageId }

/-- `rebase_pending`: the transaction on top of the committed root, or `none` for a
conflict. -/
def rebasePending (committed : Pages) (self : CowBTree) (currentRoot currentNext : Nat) :
    Except (Error × CowBTree) (Option CowBTree) := do
  let next := max currentNext self.nextPageId
  let look := getAt self.pageSize committed next
  let found <- self.leaving (conflicts (look self.root) (look currentRoot) self.pendingOps.keys)
  if found then return none
  else
    let ops <- leaving { self with pendingOps := ∅ }
      (mergeMonotonicMetadata (look currentRoot) self.pendingOps)
    return some (<- replay committed (self.resetTo currentRoot currentNext) ops.toList)

/-- `encode_pending_record`: the record of the materialised transaction. -/
def pendingRecord (self : CowBTree) (currentRoot currentSeq : Nat) : WalRecord where
  seq := currentSeq + 1
  prevSeq := currentSeq
  prevRoot := currentRoot
  root := self.pendingRoot
  next := self.pendingNext
  pages := self.dirty.toList.map fun
    | (id, .encoded bytes) => (id, bytes)
    | (id, .decoded _) => (id, [])

/-- The part of `commit` that builds the record: the transaction ready to be written
with its record, or `none` for a conflict. -/
def prepareCommit (committed : Pages) (formatVersion : Nat) (self : CowBTree)
    (currentRoot currentNext currentSeq : Nat) :
    Except (Error × CowBTree) (Option (CowBTree × WalRecord)) := do
  match <- self.rebasePending committed currentRoot currentNext with
  | none => return none
  | some rebased =>
    let ready <- rebased.leaving rebased.materializeDirty
    let record := ready.pendingRecord currentRoot currentSeq
    let length := (encodeRecord formatVersion record).length
    if length > maxRecordLen self.pageSize then
      throw (.storage s!"transaction does not fit the write-ahead log ({length} > {maxRecordLen self.pageSize} bytes)",
        ready)
    else return some (ready, record)

/-- The handle after its own commit: its transaction is the committed state. -/
def settled (self : CowBTree) : CowBTree :=
  { self with
    root := self.pendingRoot, nextPageId := self.pendingNext
    dirty := ∅, pendingOps := ∅, hasPending := false }

/-! ## The conflict test -/

theorem conflicts_eq {snapshot current : Bytes -> Except Error (Option Bytes)}
    {was now : Bytes -> Option Bytes} (wasRead : ∀ key, snapshot key = .ok (was key))
    (nowRead : ∀ key, current key = .ok (now key)) (keys : List Bytes) :
    ∃ found, conflicts snapshot current keys = .ok found ∧
      (found = true ↔ ∃ key ∈ keys, mergeableMetadataKey key = false ∧ was key ≠ now key) := by
  induction keys with
  | nil => exact ⟨false, rfl, by simp⟩
  | cons key keys ih =>
    obtain ⟨found, isFound, means⟩ := ih
    by_cases differs : was key ≠ now key ∧ ¬ mergeableMetadataKey key
    · refine ⟨true, ?_, ?_⟩
      · simp only [conflicts, wasRead, nowRead, bind, Except.bind, if_pos differs]
        rfl
      · simpa using Or.inl ⟨by simpa using differs.2, differs.1⟩
    · refine ⟨found, ?_, ?_⟩
      · simp only [conflicts, wasRead, nowRead, bind, Except.bind, if_neg differs]
        exact isFound
      · rw [means]
        have passes : ¬ (mergeableMetadataKey key = false ∧ was key ≠ now key) := by
          rintro ⟨row, distinct⟩
          exact differs ⟨distinct, by simp [row]⟩
        simp [passes]

/-! ## The replay -/

/-- A put that its page and the log can take; a deletion always is. -/
def OpFits (pageSize : Nat) (op : Bytes × Option Bytes) : Prop :=
  ∀ value, op.2 = some value ->
    keyFits pageSize op.1 = true ∧ value.length ≤ maxRecordLen pageSize

/-- Every put of the transaction fits. -/
def OpsFit (pageSize : Nat) (ops : PendingOps) : Prop :=
  ∀ (key : Bytes) op, ops[key]? = some op -> OpFits pageSize (key, op)

theorem OpsFit.empty (pageSize : Nat) : OpsFit pageSize ∅ := by
  intro key op found
  simp at found

variable {op : Option Bytes}

variable {pageSize : Nat}

theorem OpsFit.insert {ops : PendingOps} {key : Bytes} (opsFit : OpsFit pageSize ops)
    (fits : OpFits pageSize (key, op)) :
    OpsFit pageSize (ops.insert key op) := by
  intro other found isFound
  rw [getElem?_insert] at isFound
  split at isFound
  · rename_i same
    cases isFound
    exact same ▸ fits
  · exact opsFit other found isFound

/-- Merged operations fit when the transaction's own did: a counter is eight bytes
and the key of a change record has one length. -/
theorem OpsFit.merged (small : 128 ≤ pageSize) {ops after : PendingOps}
    {current : Bytes -> Option Bytes} (opsFit : OpsFit pageSize ops)
    (merged : ∀ key : Bytes, after[key]? = rebasedOps (ops[·]?) current key) :
    OpsFit pageSize after := by
  have eight : ∀ counter, (leBytes 8 counter).length ≤ maxRecordLen pageSize := by
    intro counter
    simp only [length_leBytes, maxRecordLen, walRegionLen, walBlocks]
    omega
  have counterFits : ∀ (key : Bytes) (bytes : Bytes) (counter : Nat), ops[key]? = some (some bytes) →
      OpFits pageSize (key, some (leBytes 8 counter)) := by
    rintro key bytes counter found _ ⟨⟩
    exact ⟨(opsFit key _ found bytes rfl).1, eight counter⟩
  have maxedFits : ∀ (key : Bytes) op, maxedOps (ops[·]?) current key = some op ->
      OpFits pageSize (key, op) := by
    intro key op found
    unfold maxedOps at found
    split at found
    · unfold maxedOp at found
      split at found
      · rename_i bytes isPut
        cases found
        exact counterFits key bytes _ isPut
      · exact opsFit key op found
    · exact opsFit key op found
  have sameLength : ∀ first second, (cdcKey first).length = (cdcKey second).length := by
    have digits : ∀ width value, (hexDigits width value).length = width := by
      intro width
      induction width with
      | zero => intro _; rfl
      | succ width ih => intro value; simp [hexDigits, ih]
    intro first second
    simp [cdcKey, digits]
  intro key op found
  rw [merged key] at found
  unfold rebasedOps at found
  split at found
  · rename_i bytes isVersion
    split at found
    · rename_i same
      cases found
      subst same
      exact counterFits writeVersionMeta bytes _ isVersion
    · split at found
      · rename_i moved
        intro value isPut
        obtain ⟨fits, short⟩ := opsFit _ op found value isPut
        refine ⟨?_, short⟩
        rw [keyFits_iff] at fits ⊢
        rwa [moved.2, sameLength _ (ofLe bytes)]
      · split at found
        · cases found
        · exact maxedFits key op found
  · exact maxedFits key op found

/-- What replaying does to a handle besides its tree. -/
structure Replayed (before after : CowBTree) : Prop where
  pageSize : after.pageSize = before.pageSize
  root : after.root = before.root
  nextPageId : after.nextPageId = before.nextPageId
  next_le : before.readNext ≤ after.readNext
  pending : after = before ∨ after.hasPending = true
  opsFit : OpsFit before.pageSize before.pendingOps -> OpsFit before.pageSize after.pendingOps

theorem Replayed.refl (self : CowBTree) : Replayed self self :=
  ⟨rfl, rfl, rfl, le_rfl, .inl rfl, id⟩

theorem Replayed.after_write {before middle after : CowBTree} {key : Bytes}
    (wrote : Wrote before middle key op) (fits : OpFits before.pageSize (key, op))
    (replayed : Replayed middle after) : Replayed before after where
  pageSize := replayed.pageSize.trans wrote.pageSize
  root := replayed.root.trans wrote.root
  nextPageId := replayed.nextPageId.trans wrote.nextPageId
  next_le := wrote.next_le.trans replayed.next_le
  pending := by
    rcases replayed.pending with rfl | pending
    · exact .inr wrote.hasPending
    · exact .inr pending
  opsFit held := by
    rw [<- wrote.pageSize]
    apply replayed.opsFit
    rw [wrote.pageSize, wrote.pendingOps]
    exact held.insert fits

section Replay

variable {committed : Pages} {tree after : CowBTree} {entries : List (Bytes × Bytes)}
  {contents : Bytes -> Option Bytes} {ops : List (Bytes × Option Bytes)}

theorem leaving_ok {α : Type} {result : Except Error α} {value : α}
    (ok : tree.leaving result = .ok value) : result = .ok value := by
  cases result with
  | error error => cases ok
  | ok found =>
    cases ok
    rfl

variable {op : Bytes × Option Bytes}

theorem redo_wrote (done : tree.redo committed op = .ok after) : Wrote tree after op.1 op.2 := by
  obtain ⟨key, op⟩ := op
  cases op with
  | none => exact delete_wrote done
  | some value => exact put_wrote done

theorem replay_replayed (fits : ∀ op ∈ ops, OpFits tree.pageSize op) :
    (replay committed tree ops = .ok after -> Replayed tree after) ∧
      ∀ error, replay committed tree ops = .error (error, after) -> Replayed tree after := by
  induction ops generalizing tree with
  | nil =>
    refine ⟨?_, ?_⟩
    · rintro ⟨⟩
      exact .refl _
    · rintro error ⟨⟩
  | cons op ops ih =>
    rw [replay]
    cases done : tree.redo committed op with
    | error failure =>
      refine ⟨?_, ?_⟩
      · rintro ⟨⟩
      · rintro error ⟨⟩
        exact .refl _
    | ok middle =>
      have wrote := redo_wrote done
      have laterFits : ∀ later ∈ ops, OpFits middle.pageSize later := by
        intro later member
        rw [wrote.pageSize]
        exact fits later (by simp [member])
      obtain ⟨finished, failed⟩ := ih laterFits
      exact ⟨fun isDone => .after_write wrote (fits op (by simp)) (finished isDone),
        fun error isError => .after_write wrote (fits op (by simp)) (failed error isError)⟩

theorem Sound.redo (sound : Sound committed tree entries) (fits : OpFits tree.pageSize op)
    (done : tree.redo committed op = .ok after) (room : after.readNext ≤ 2 ^ 64) :
    (∀ id < tree.readNext, id ∈ after.dirty -> id ∈ tree.dirty) ∧
      ∃ placed, Sound committed after placed ∧ Overlay entries op.1 op.2 placed := by
  obtain ⟨key, op⟩ := op
  cases op with
  | none =>
    obtain ⟨same, isSame, mine, rest⟩ := sound.delete_eq key
    obtain rfl : after = same := Except.ok.inj (done.symm.trans isSame)
    exact ⟨mine, rest⟩
  | some value =>
    obtain ⟨keyFits, short⟩ := fits value rfl
    obtain ⟨same, isSame, mine, rest⟩ := sound.put_eq keyFits short
    obtain rfl : after = same := Except.ok.inj (done.symm.trans isSame)
    exact ⟨mine, rest room⟩

theorem Sound.replay (sound : Sound committed tree entries) (represents : Represents entries contents)
    (fits : ∀ op ∈ ops, OpFits tree.pageSize op)
    (done : replay committed tree ops = .ok after) (room : after.readNext ≤ 2 ^ 64) :
    (∀ id < tree.readNext, id ∈ after.dirty -> id ∈ tree.dirty) ∧
      ∃ placed, Sound committed after placed ∧
        Represents placed (ops.foldl (fun held op => Function.update held op.1 op.2) contents) := by
  induction ops generalizing tree entries contents with
  | nil =>
    cases done
    exact ⟨fun _ _ member => member, entries, sound, represents⟩
  | cons op ops ih =>
    obtain ⟨middle, isMiddle, rest⟩ := bind_eq_ok done
    have isDone := leaving_ok isMiddle
    have wrote := redo_wrote isDone
    have laterFits : ∀ later ∈ ops, OpFits middle.pageSize later := by
      intro later member
      rw [wrote.pageSize]
      exact fits later (by simp [member])
    have middleRoom := ((replay_replayed laterFits).1 rest).next_le.trans room
    obtain ⟨mine, placed, placedSound, overlay⟩ := sound.redo (fits op (by simp)) isDone middleRoom
    obtain ⟨laterMine, final⟩ := ih placedSound (represents.overlay overlay) laterFits rest
    refine ⟨?_, final⟩
    intro id old member
    exact mine id old (laterMine id (old.trans_le wrote.next_le) member)

theorem foldl_update (distinct : ops.Pairwise fun first second => first.1 ≠ second.1)
    (contents : Bytes -> Option Bytes) (key : Bytes) :
    (∀ op, (key, op) ∈ ops ->
      ops.foldl (fun held op => Function.update held op.1 op.2) contents key = op) ∧
    ((∀ op, (key, op) ∉ ops) ->
      ops.foldl (fun held op => Function.update held op.1 op.2) contents key = contents key) := by
  induction ops generalizing contents with
  | nil => simp
  | cons first ops ih =>
    obtain ⟨apart, distinctRest⟩ := List.pairwise_cons.mp distinct
    obtain ⟨held, absent⟩ := ih distinctRest (Function.update contents first.1 first.2)
    refine ⟨?_, ?_⟩
    · intro op member
      rcases List.mem_cons.mp member with rfl | later
      · have notLater : ∀ other, (key, other) ∉ ops := fun other later => apart _ later rfl
        rw [List.foldl_cons, absent notLater]
        simp
      · exact held op later
    · intro none
      have notFirst : key ≠ first.1 := by
        rintro rfl
        exact none first.2 (by simp)
      rw [List.foldl_cons, absent fun op later => none op (List.mem_cons_of_mem _ later)]
      simp [notFirst]

theorem foldl_toList (ops : PendingOps) (contents : Bytes -> Option Bytes) (key : Bytes) :
    ops.toList.foldl (fun held op => Function.update held op.1 op.2) contents key =
      ops[key]?.getD (contents key) := by
  have distinct : ops.toList.Pairwise fun first second => first.1 ≠ second.1 :=
    Std.TreeMap.distinct_keys_toList.imp fun distinct same =>
      distinct (Std.LawfulEqCmp.compare_eq_iff_eq.mpr same)
  obtain ⟨held, absent⟩ := foldl_update distinct contents key
  cases found : ops[key]? with
  | none =>
    apply absent
    intro op member
    rw [Std.TreeMap.mem_toList_iff_getElem?_eq_some, found] at member
    cases member
  | some op =>
    exact held op (Std.TreeMap.mem_toList_iff_getElem?_eq_some.mpr found)

end Replay

/-! ## The commit as a whole -/

/-- What every handle on a device keeps between calls: its root is a committed one and
its operations fit. -/
structure Anchored (pageSize : Nat) (pages : Pages) (next : Nat) (tree : CowBTree) : Prop where
  size : tree.pageSize = pageSize
  root : ∃ contents, Roots pageSize pages next tree.root contents
  next_le : tree.nextPageId ≤ next
  opsFit : OpsFit pageSize tree.pendingOps

/-- A transaction whose pages are encoded, all of them new, and whose root over them
stands for `contents`. -/
structure Prepared (pageSize : Nat) (area : Nat -> Bytes) (start : Nat)
    (contents : Bytes -> Option Bytes) (tree : CowBTree) : Prop where
  size : tree.pageSize = pageSize
  next_le : start ≤ tree.pendingNext
  encoded : ∀ (id : Nat) page, tree.dirty[id]? = some page -> ∃ bytes : Bytes,
    page = .encoded bytes ∧ bytes.length = pageSize ∧ start ≤ id ∧ id < tree.pendingNext
  roots : Roots pageSize (Pages.ofArea pageSize (tree.writeDirtyPages area)) tree.pendingNext
    tree.pendingRoot contents

section Prepare

variable {area : Nat -> Bytes} {self : CowBTree} {currentRoot currentNext : Nat}
  {was now : Bytes -> Option Bytes}

variable {pages : Pages} {formatVersion : Nat} {left : CowBTree}

theorem resetTo_sound (small : 128 ≤ self.pageSize) (large : self.pageSize < 2 ^ 16)
    (positive : 0 < currentNext) (roots : Roots self.pageSize pages currentNext currentRoot now) :
    ∃ entries, Sound pages (self.resetTo currentRoot currentNext) entries ∧
      Represents entries now := by
  obtain ⟨height, entries, rests, subtree, issued, represents⟩ :=
    roots.mono (le_max_left currentNext self.nextPageId)
  refine ⟨entries, ⟨small, large, ?_, ⟨?_, ?_, ?_⟩, ?_, height, rests, subtree, issued⟩, represents⟩
  · simp [resetTo]
  · simp [resetTo]
  · simp [resetTo]
  · simp [resetTo]
  · change 0 < max currentNext self.nextPageId
    omega

variable {entries : List (Bytes × Bytes)} {ready : CowBTree} {currentSeq : Nat} {record : WalRecord}

theorem Sound.view {committed : Pages} {tree : CowBTree} (sound : Sound committed tree entries)
    (ready : tree.hasPending = true ∨ tree.pendingRoot = tree.root ∧
      tree.pendingNext = tree.nextPageId) :
    tree.readNext = tree.pendingNext ∧ ∃ height rests,
      Subtree tree.pageSize (tree.pages committed) height tree.pendingRoot none none entries rests ∧
        ∀ id ∈ rests, id < tree.pendingNext := by
  obtain ⟨height, rests, subtree, issued⟩ := sound.subtree
  by_cases pending : tree.hasPending = true
  · simp only [readPages, readRoot, readNext, pending, if_true] at subtree issued
    exact ⟨readNext_of_pending pending, height, rests, subtree, issued⟩
  · obtain ⟨root, next⟩ := ready.resolve_left pending
    have idle : tree.hasPending = false := by simpa using pending
    have clean := pages_of_clean committed tree (sound.idle idle)
    have readNext : tree.readNext = tree.pendingNext := by
      rw [next, CowBTree.readNext, idle]
      rfl
    rw [readNext] at issued
    rw [clean, root]
    simp only [readPages, readRoot, idle] at subtree
    exact ⟨readNext, height, rests, subtree, issued⟩

theorem rebasePending_conflict (small : 128 ≤ self.pageSize)
    (wasRoots : Roots self.pageSize pages (max currentNext self.nextPageId) self.root was)
    (nowRoots : Roots self.pageSize pages currentNext currentRoot now) :
    self.rebasePending pages currentRoot currentNext = .ok none ↔
      ∃ key ∈ self.pendingOps, mergeableMetadataKey key = false ∧ was key ≠ now key := by
  have nowLook := (nowRoots.mono (le_max_left currentNext self.nextPageId)).getAt_eq small
  obtain ⟨found, isFound, means⟩ := conflicts_eq (wasRoots.getAt_eq small) nowLook
    self.pendingOps.keys
  simp only [Std.TreeMap.mem_keys] at means
  rw [<- means]
  simp only [rebasePending]
  rw [isFound]
  cases found with
  | true => exact ⟨fun _ => rfl, fun _ => rfl⟩
  | false =>
    constructor
    · intro conflict
      obtain ⟨_, ⟨⟩, rest⟩ := bind_eq_ok conflict
      obtain ⟨ops, -, rest⟩ := bind_eq_ok rest
      obtain ⟨rebased, -, result⟩ := bind_eq_ok rest
      cases result
    · intro absurd
      cases absurd

theorem rebasePending_some {rebased : CowBTree} (small : 128 ≤ self.pageSize)
    (nowRoots : Roots self.pageSize pages currentNext currentRoot now)
    (opsFit : OpsFit self.pageSize self.pendingOps)
    (done : self.rebasePending pages currentRoot currentNext = .ok (some rebased)) :
    ∃ ops : PendingOps, (∀ key : Bytes, ops[key]? = rebasedOps (self.pendingOps[·]?) now key) ∧
      (∀ op ∈ ops.toList, OpFits self.pageSize op) ∧
      replay pages (self.resetTo currentRoot currentNext) ops.toList = .ok rebased := by
  obtain ⟨found, -, rest⟩ := bind_eq_ok done
  cases found with
  | true => cases rest
  | false =>
    obtain ⟨ops, merged, rest⟩ := bind_eq_ok rest
    obtain ⟨sameRebased, replayed, result⟩ := bind_eq_ok rest
    cases result
    have look := (nowRoots.mono (le_max_left currentNext self.nextPageId)).getAt_eq small
    have eachOp := mergeMonotonicMetadata_eq look (leaving_ok merged)
    refine ⟨ops, eachOp, ?_, replayed⟩
    rintro ⟨key, op⟩ member
    exact (opsFit.merged small eachOp) key op
      (Std.TreeMap.mem_toList_iff_getElem?_eq_some.mp member)

theorem Sound.prepared {tree : CowBTree} {start : Nat} {contents : Bytes -> Option Bytes}
    (sound : Sound (Pages.ofArea tree.pageSize area) tree entries)
    (represents : Represents entries contents)
    (open_ : tree.hasPending = true ∨ tree.pendingRoot = tree.root ∧
      tree.pendingNext = tree.nextPageId) (fresh : ∀ id ∈ tree.dirty, start ≤ id)
    (later : start ≤ tree.pendingNext) (done : tree.materializeDirty = .ok ready)
    (room : tree.pendingNext ≤ 2 ^ 64) : Prepared tree.pageSize area start contents ready := by
  obtain ⟨-, height, rests, subtree, issued⟩ := sound.view open_
  obtain ⟨same, isSame, only, encoded, keeps⟩ :=
    sound.tidy.materialize (Pages.ofArea tree.pageSize area) sound.large
  obtain rfl : ready = same := Except.ok.inj (done.symm.trans isSame)
  have size : ready.pageSize = tree.pageSize := by rw [only]
  have next : ready.pendingNext = tree.pendingNext := by rw [only]
  have root : ready.pendingRoot = tree.pendingRoot := by rw [only]
  have isEncoded : ∀ (id : Nat) page, ready.dirty[id]? = some page ->
      ∃ bytes, page = .encoded bytes := by
    intro id page found
    obtain ⟨bytes, isBytes, -⟩ := encoded id page found
    exact ⟨bytes, isBytes⟩
  have written := pages_written ready area isEncoded
  rw [size] at written
  refine ⟨size, next ▸ later, ?_, height, entries, rests, ?_, next ▸ issued, represents⟩
  · intro id page found
    obtain ⟨bytes, isBytes, length, below, member⟩ := encoded id page found
    exact ⟨bytes, isBytes, length, fresh id member, next ▸ below⟩
  · rw [written, root]
    exact subtree.frame (keeps room rests)

theorem prepareCommit_record
    (done : self.prepareCommit pages formatVersion currentRoot currentNext currentSeq = .ok (some
      (ready, record))) :
    record = ready.pendingRecord currentRoot currentSeq ∧
      (encodeRecord formatVersion record).length ≤ maxRecordLen self.pageSize := by
  obtain ⟨outcome, -, rest⟩ := bind_eq_ok done
  cases outcome with
  | none => cases rest
  | some rebased =>
    obtain ⟨materialized, -, rest⟩ := bind_eq_ok rest
    simp only at rest
    split at rest
    · cases rest
    · rename_i fits
      cases rest
      exact ⟨rfl, not_lt.mp fits⟩

/-- A commit that reaches its record has overlaid the operations on the committed
contents, in pages of its own. -/
theorem prepareCommit_some (small : 128 ≤ self.pageSize) (large : self.pageSize < 2 ^ 16)
    (positive : 0 < currentNext)
    (nowRoots : Roots self.pageSize (Pages.ofArea self.pageSize area) currentNext currentRoot now)
    (opsFit : OpsFit self.pageSize self.pendingOps)
    (done : self.prepareCommit (Pages.ofArea self.pageSize area) formatVersion currentRoot
      currentNext currentSeq = .ok (some (ready, record))) (room : ready.pendingNext ≤ 2 ^ 64) :
    Prepared self.pageSize area (max currentNext self.nextPageId)
      (overlaid (self.pendingOps[·]?) now) ready := by
  obtain ⟨outcome, isOutcome, rest⟩ := bind_eq_ok done
  cases outcome with
  | none => cases rest
  | some rebased =>
    obtain ⟨materialized, isMaterialized, rest⟩ := bind_eq_ok rest
    simp only at rest
    split at rest
    · cases rest
    · cases rest
      obtain ⟨ops, eachOp, opFits, isReplayed⟩ := rebasePending_some small nowRoots opsFit isOutcome
      let start := self.resetTo currentRoot currentNext
      have startFits : ∀ op ∈ ops.toList, OpFits start.pageSize op := opFits
      have replayed := (replay_replayed startFits).1 isReplayed
      have size : rebased.pageSize = self.pageSize := replayed.pageSize
      have openTxn : rebased.hasPending = true ∨ rebased.pendingRoot = rebased.root ∧
          rebased.pendingNext = rebased.nextPageId := by
        rcases replayed.pending with rfl | pending
        · exact .inr ⟨rfl, rfl⟩
        · exact .inl pending
      have isReady := leaving_ok isMaterialized
      have readNext : rebased.readNext = rebased.pendingNext := by
        rcases openTxn with pending | ⟨-, next⟩
        · exact readNext_of_pending pending
        · rw [CowBTree.readNext, next, ite_self]
      have sameNext : ready.pendingNext = rebased.pendingNext := by
        obtain ⟨dirty, -, result⟩ := bind_eq_ok isReady
        cases result
        rfl
      rw [sameNext] at room
      obtain ⟨entries, sound, represents⟩ := resetTo_sound small large positive nowRoots
      obtain ⟨mine, placed, placedSound, placedRepresents⟩ :=
        sound.replay represents startFits isReplayed (readNext ▸ room)
      have overlays : Represents placed (overlaid (self.pendingOps[·]?) now) := by
        have same : ops.toList.foldl (fun held op => Function.update held op.1 op.2) now =
            overlaid (self.pendingOps[·]?) now := by
          funext key
          rw [foldl_toList, eachOp]
          rfl
        exact same ▸ placedRepresents
      rw [<- size] at placedSound ⊢
      refine placedSound.prepared overlays openTxn ?_ ?_ isReady room
      · intro id member
        by_contra old
        have inStart := mine id (not_le.mp old) member
        simp [resetTo] at inStart
      · rw [<- readNext]
        exact replayed.next_le

theorem prepareCommit_conflict (small : 128 ≤ self.pageSize)
    (wasRoots : Roots self.pageSize pages (max currentNext self.nextPageId) self.root was)
    (nowRoots : Roots self.pageSize pages currentNext currentRoot now) :
    self.prepareCommit pages formatVersion currentRoot currentNext currentSeq = .ok none ↔
      ∃ key ∈ self.pendingOps, mergeableMetadataKey key = false ∧ was key ≠ now key := by
  rw [<- rebasePending_conflict small wasRoots nowRoots]
  constructor
  · intro conflict
    obtain ⟨outcome, isOutcome, rest⟩ := bind_eq_ok conflict
    cases outcome with
    | none => exact isOutcome
    | some rebased =>
      obtain ⟨ready, -, rest⟩ := bind_eq_ok rest
      simp only at rest
      split at rest <;> cases rest
  · intro conflict
    rw [prepareCommit, conflict]
    rfl

theorem rebasePending_error {error : Error} (small : 128 ≤ self.pageSize)
    (anchored : Anchored self.pageSize pages currentNext self)
    (nowRoots : Roots self.pageSize pages currentNext currentRoot now)
    (failed : self.rebasePending pages currentRoot currentNext = .error (error, left)) :
    Anchored self.pageSize pages currentNext left := by
  obtain ⟨was, wasRoots⟩ := anchored.root
  have nowLook := (nowRoots.mono (le_max_left currentNext self.nextPageId)).getAt_eq small
  have wasLook := (wasRoots.mono (le_max_left currentNext self.nextPageId)).getAt_eq small
  obtain ⟨found, isFound, -⟩ := conflicts_eq wasLook nowLook self.pendingOps.keys
  simp only [rebasePending] at failed
  rw [isFound] at failed
  cases found with
  | true => cases failed
  | false =>
    cases merged : mergeMonotonicMetadata
        (getAt self.pageSize pages (max currentNext self.nextPageId) currentRoot)
        self.pendingOps with
    | error mergeError =>
      rw [merged] at failed
      cases failed
      exact ⟨rfl, anchored.root, anchored.next_le, .empty _⟩
    | ok ops =>
      rw [merged] at failed
      change (replay pages (self.resetTo currentRoot currentNext) ops.toList >>= _) = _ at failed
      have eachOp := mergeMonotonicMetadata_eq nowLook merged
      have opFits : ∀ op ∈ ops.toList, OpFits self.pageSize op := by
        rintro ⟨key, op⟩ member
        exact (anchored.opsFit.merged small eachOp) key op
          (Std.TreeMap.mem_toList_iff_getElem?_eq_some.mp member)
      let start := self.resetTo currentRoot currentNext
      have startFits : ∀ op ∈ ops.toList, OpFits start.pageSize op := opFits
      cases replayed : replay pages start ops.toList with
      | ok rebased =>
        rw [replayed] at failed
        cases failed
      | error failure =>
        rw [replayed] at failed
        cases failed
        have stopped := (replay_replayed startFits).2 error replayed
        refine ⟨stopped.pageSize, ⟨now, ?_⟩, ?_, ?_⟩
        · rw [stopped.root]
          exact nowRoots
        · rw [stopped.nextPageId]
          exact max_le le_rfl anchored.next_le
        · exact stopped.opsFit (.empty _)

theorem prepareCommit_error {error : Error} (small : 128 ≤ self.pageSize)
    (anchored : Anchored self.pageSize pages currentNext self)
    (nowRoots : Roots self.pageSize pages currentNext currentRoot now)
    (failed : self.prepareCommit pages formatVersion currentRoot currentNext currentSeq = .error
      (error, left)) : Anchored self.pageSize pages currentNext left := by
  unfold prepareCommit at failed
  cases rebase : self.rebasePending pages currentRoot currentNext with
  | error failure =>
    rw [rebase] at failed
    cases failed
    exact rebasePending_error small anchored nowRoots rebase
  | ok outcome =>
    rw [rebase] at failed
    cases outcome with
    | none => cases failed
    | some rebased =>
      obtain ⟨ops, -, opFits, isReplayed⟩ :=
        rebasePending_some small nowRoots anchored.opsFit rebase
      let start := self.resetTo currentRoot currentNext
      have startFits : ∀ op ∈ ops.toList, OpFits start.pageSize op := opFits
      have replayed := (replay_replayed startFits).1 isReplayed
      have anchoredTo : Anchored self.pageSize pages currentNext rebased := by
        refine ⟨replayed.pageSize, ⟨now, ?_⟩, ?_, ?_⟩
        · rw [replayed.root]
          exact nowRoots
        · rw [replayed.nextPageId]
          exact max_le le_rfl anchored.next_le
        · exact replayed.opsFit (.empty _)
      cases material : rebased.materializeDirty with
      | error failure =>
        simp only [bind, Except.bind, leaving, material] at failed
        cases failed
        exact anchoredTo
      | ok ready =>
        simp only [bind, Except.bind, leaving, material] at failed
        split at failed
        · cases failed
          obtain ⟨dirty, -, result⟩ := bind_eq_ok material
          cases result
          exact ⟨anchoredTo.size, anchoredTo.root, anchoredTo.next_le, anchoredTo.opsFit⟩
        · cases failed

end Prepare

end CowBTree

end InlaySql.Btree
