import InlaySql.Btree.Transaction
import InlaySql.Lib.Transition

/-!
# The tree as an ordered map

A `Store` is one handle over its data area. Its calls update a finite map from keys
to values; `Represents` ties the entries a store holds to that map, and every run
keeps it. No value may be longer than a log region: a longer one is stored, commits
when the zero runs its record elides make room, and is refused by every read.
-/

namespace InlaySql.Btree

open Lib Wal

/-- A handle and the data area its pages are read from. -/
structure Store where
  area : Nat -> Bytes
  tree : CowBTree

/-- The calls that change a store. -/
inductive Update where
  | put (key value : Bytes)
  | delete (key : Bytes)
  | materialize
  | settle
  deriving DecidableEq, Repr

namespace Store

def empty (pageSize : Nat) : Store := ⟨fun _ => [], .empty pageSize⟩

def pages (store : Store) : Pages := Pages.ofArea store.tree.pageSize store.area

def get (store : Store) (key : Bytes) : Except Error (Option Bytes) :=
  store.tree.get store.pages key

def scan (store : Store) : Except Error (List (Bytes × Bytes)) := store.tree.scan store.pages

/-- Encode what is still cells; without an open transaction there is nothing to do. -/
def materialize (store : Store) : Except Error Store :=
  if store.tree.hasPending then do return { store with tree := <- store.tree.materializeDirty }
  else .ok store

/-- Write the transaction's pages out and adopt its root. -/
def settle (store : Store) : Except Error Store :=
  if store.tree.hasPending then do
    let store <- store.materialize
    return { area := store.tree.writeDirtyPages store.area,
             tree := { store.tree with
               root := store.tree.pendingRoot, nextPageId := store.tree.pendingNext
               dirty := ∅, pendingOps := ∅, hasPending := false } }
  else .ok store

def apply (store : Store) : Update -> Except Error Store
  | .put key value => do return { store with tree := <- store.tree.put store.pages key value }
  | .delete key => do return { store with tree := <- store.tree.delete store.pages key }
  | .materialize => store.materialize
  | .settle => store.settle

end Store

/-- What a call does to the map. -/
def Update.on (contents : Bytes -> Option Bytes) : Update -> Bytes -> Option Bytes
  | .put key value => Function.update contents key (some value)
  | .delete key => Function.update contents key none
  | .materialize | .settle => contents

/-- A key that fits a page with a value the log can carry. -/
def Update.Fits (pageSize : Nat) : Update -> Prop
  | .put key value => CowBTree.keyFits pageSize key = true ∧ value.length ≤ maxRecordLen pageSize
  | _ => True

/-- Calls on a tree that starts empty, as long as its page counter is a `u64`. -/
def calls (pageSize : Nat) : System Store Update where
  Initial store := store = Store.empty pageSize
  Step store update after := update.Fits pageSize ∧ store.apply update = .ok after ∧
    after.tree.readNext ≤ 2 ^ 64

/-- The map a run of calls on an empty tree builds. -/
def mapOf (updates : List Update) : Bytes -> Option Bytes := updates.foldl Update.on fun _ => none

namespace Store

variable {store after : Store} {entries : List (Bytes × Bytes)}

/-- What holds between two calls. -/
def Holds (store : Store) (entries : List (Bytes × Bytes)) : Prop :=
  store.tree.Sound store.pages entries

theorem empty_holds {pageSize : Nat} (small : 128 ≤ pageSize) (large : pageSize < 2 ^ 16) :
    (empty pageSize).Holds [] := by
  refine ⟨small, large, fun _ id => ?_, ⟨?_, ?_, ?_⟩, ?_, 0, ∅, .empty, by simp⟩ <;>
    simp [empty, CowBTree.empty, CowBTree.readNext]

section

variable (holds : store.Holds entries) (room : store.tree.readNext ≤ 2 ^ 64)

include holds room

theorem Holds.materialize : ∃ after, store.materialize = .ok after ∧ after.Holds entries ∧
      after.tree.pageSize = store.tree.pageSize ∧ after.tree.readNext = store.tree.readNext := by
  unfold Store.materialize
  by_cases pending : store.tree.hasPending = true
  · rw [CowBTree.readNext, if_pos pending] at room
    obtain ⟨tree, isTree, only, -, sound⟩ := CowBTree.Sound.materialize holds pending room
    have size : tree.pageSize = store.tree.pageSize := by rw [only]
    refine ⟨{ store with tree }, ?_, ?_, size, ?_⟩
    · rw [if_pos pending, isTree]
      rfl
    · simpa only [Holds, pages, size] using sound
    · rw [CowBTree.readNext, CowBTree.readNext, only]
  · rw [if_neg pending]
    exact ⟨store, rfl, holds, rfl, rfl⟩

theorem Holds.settle : ∃ after, store.settle = .ok after ∧ after.Holds entries ∧
      after.tree.pageSize = store.tree.pageSize ∧ after.tree.readNext = store.tree.readNext := by
  unfold Store.settle
  by_cases pending : store.tree.hasPending = true
  · rw [CowBTree.readNext, if_pos pending] at room
    obtain ⟨tree, isTree, only, encoded, sound⟩ := CowBTree.Sound.materialize holds pending room
    have size : tree.pageSize = store.tree.pageSize := by rw [only]
    have stillPending : tree.hasPending = true := by rw [only]; exact pending
    have next : tree.pendingNext = store.tree.pendingNext := by rw [only]
    let done : Store := { store with tree }
    have donePages : done.pages = store.pages := by simp only [done, pages, size]
    have isDone : store.materialize = .ok done := by
      rw [Store.materialize, if_pos pending, isTree]
      rfl
    have isEncoded : ∀ (id : Nat) page, tree.dirty[id]? = some page ->
        ∃ bytes, page = .encoded bytes := by
      intro id page found
      obtain ⟨bytes, isBytes, -⟩ := encoded id page found
      exact ⟨bytes, isBytes⟩
    obtain ⟨height, rests, subtree, issued, -⟩ := sound.opened stillPending
    refine ⟨_, by rw [if_pos pending, isDone]; rfl, ?_, size, ?_⟩
    · refine ⟨sound.small, sound.large, by simp, ⟨by simp, by simp, by simp⟩, ?_, height, rests, ?_,
        issued⟩
      · simpa [CowBTree.readNext, stillPending] using sound.positive
      · rw [<- donePages] at subtree
        simp only [CowBTree.readPages, CowBTree.readRoot, pages]
        rw [Store.pages, <- CowBTree.pages_written _ _ isEncoded] at subtree
        exact subtree
    · simp [CowBTree.readNext, pending, done, next]
  · rw [if_neg pending]
    exact ⟨store, rfl, holds, rfl, rfl⟩

end

theorem Holds.apply (holds : store.Holds entries) {contents : Bytes -> Option Bytes}
    (represents : Represents entries contents) (update : Update)
    (fits : update.Fits store.tree.pageSize) (room : store.tree.readNext ≤ 2 ^ 64) :
    ∃ after, store.apply update = .ok after ∧ after.tree.pageSize = store.tree.pageSize ∧
      store.tree.readNext ≤ after.tree.readNext ∧
      (after.tree.readNext ≤ 2 ^ 64 -> ∃ entries, after.Holds entries ∧
        Represents entries (update.on contents)) := by
  cases update with
  | put key value =>
    obtain ⟨tree, isTree, -, sound⟩ := CowBTree.Sound.put_eq holds fits.1 fits.2
    have wrote := CowBTree.put_wrote isTree
    refine ⟨{ store with tree }, ?_, wrote.pageSize, wrote.next_le, fun room => ?_⟩
    · rw [Store.apply, isTree]
      rfl
    · obtain ⟨placed, placedSound, overlay⟩ := sound room
      refine ⟨placed, ?_, represents.overlay overlay⟩
      simpa only [Holds, pages, wrote.pageSize] using placedSound
  | delete key =>
    obtain ⟨tree, isTree, -, dropped, sound, overlay⟩ := CowBTree.Sound.delete_eq holds key
    have wrote := CowBTree.delete_wrote isTree
    refine ⟨{ store with tree }, ?_, wrote.pageSize, wrote.next_le, fun _ => ?_⟩
    · rw [Store.apply, isTree]
      rfl
    · refine ⟨dropped, ?_, represents.overlay overlay⟩
      simpa only [Holds, pages, wrote.pageSize] using sound
  | materialize =>
    obtain ⟨after, isAfter, still, size, next⟩ := holds.materialize room
    exact ⟨after, isAfter, size, next.ge, fun _ => ⟨entries, still, represents⟩⟩
  | settle =>
    obtain ⟨after, isAfter, still, size, next⟩ := holds.settle room
    exact ⟨after, isAfter, size, next.ge, fun _ => ⟨entries, still, represents⟩⟩

end Store

variable {pageSize : Nat}

theorem calls_hold (small : 128 ≤ pageSize) (large : pageSize ≤ 65535) {updates : List Update}
    {store : Store} (run : (calls pageSize).Runs updates store) :
    store.tree.pageSize = pageSize ∧ store.tree.readNext ≤ 2 ^ 64 ∧
      ∃ entries, store.Holds entries ∧ Represents entries (mapOf updates) := by
  refine System.Runs.invariant (fun updates (store : Store) => store.tree.pageSize = pageSize ∧
    store.tree.readNext ≤ 2 ^ 64 ∧
      ∃ entries, store.Holds entries ∧ Represents entries (mapOf updates)) ?_ ?_ run
  · rintro store rfl
    refine ⟨rfl, by simp [Store.empty, CowBTree.empty, CowBTree.readNext], [],
      Store.empty_holds small (by omega), ?_⟩
    simp [Represents, mapOf]
  · rintro updates store update after ⟨rfl, room, entries, holds, represents⟩ ⟨fits, isAfter, still⟩
    obtain ⟨sameAfter, isSame, size, -, result⟩ := holds.apply represents update fits room
    obtain rfl : after = sameAfter := by
      rw [isAfter] at isSame
      exact Except.ok.inj isSame
    refine ⟨size, still, ?_⟩
    rw [mapOf, List.foldl_append]
    exact result still

/-- After any run of calls, lookups and the scan answer from the map the calls built,
and any further call succeeds. -/
theorem tree_is_ordered_map {pageSize : Nat} (small : 128 ≤ pageSize) (large : pageSize ≤ 65535)
    {updates : List Update} {store : Store} (run : (calls pageSize).Runs updates store) :
    (∀ key, store.get key = .ok (mapOf updates key)) ∧ (∃ entries, store.scan = .ok entries ∧
        entries.Pairwise (fun first second => first.1 < second.1) ∧
        ∀ key value, (key, value) ∈ entries ↔ mapOf updates key = some value) ∧
      ∀ update : Update, update.Fits pageSize -> ∃ after, store.apply update = .ok after := by
  obtain ⟨size, room, entries, holds, represents⟩ := calls_hold small large run
  refine ⟨fun key => ?_, ⟨entries, holds.scan_eq, holds.fenced.sorted, represents⟩, ?_⟩
  · obtain ⟨result, isResult, answers⟩ := holds.get_eq key
    have same : result = mapOf updates key := by
      apply Option.ext
      intro value
      exact (answers value).trans (represents key value)
    rw [<- same]
    exact isResult
  · intro update fits
    obtain ⟨after, isAfter, -⟩ := holds.apply represents update (size ▸ fits) room
    exact ⟨after, isAfter⟩

/-- The store some calls leave, as long as each succeeds and its page ids are `u64`s. -/
def Store.after (store : Store) : List Update -> Option Store
  | [] => some store
  | update :: updates =>
    match store.apply update with
    | .ok next => if next.tree.readNext ≤ 2 ^ 64 then next.after updates else none
    | .error _ => none

theorem runs_after {before updates : List Update} {store after : Store}
    (run : (calls pageSize).Runs before store) (fit : ∀ update ∈ updates, update.Fits pageSize)
    (isAfter : store.after updates = some after) :
    (calls pageSize).Runs (before ++ updates) after := by
  induction updates generalizing before store with
  | nil =>
    cases isAfter
    simpa using run
  | cons update updates ih =>
    obtain ⟨start, initial, steps⟩ := run
    unfold Store.after at isAfter
    split at isAfter
    · rename_i next isNext
      split at isAfter
      · rename_i room
        have first := steps.step ⟨fit update List.mem_cons_self, isNext, room⟩
        simpa using ih ⟨start, initial, first⟩ (fun _ later => fit _ (.tail _ later)) isAfter
      · cases isAfter
    · cases isAfter

/-- Pairs are put, written out, deleted and replaced. -/
theorem four_updates_are_map : ∃ store,
    (calls 128).Runs [.put [1] [2], .put [3] [4], .settle, .delete [1], .put [3] [5]] store ∧
      store.get [1] = .ok none ∧ store.get [3] = .ok (some [5]) ∧ store.get [2] = .ok none := by
  let updates : List Update := [.put [1] [2], .put [3] [4], .settle, .delete [1], .put [3] [5]]
  have isSome : ((Store.empty 128).after updates).isSome = true := by decide +kernel
  obtain ⟨store, isAfter⟩ := Option.isSome_iff_exists.mp isSome
  have run : (calls 128).Runs updates store := runs_after ⟨_, rfl, .refl⟩
    (by simp [updates, Update.Fits]; decide) isAfter
  have answers := (tree_is_ordered_map (by decide) (by decide) run).1
  exact ⟨store, run, answers [1], answers [3], answers [2]⟩

/-! ## Values longer than a log region -/

theorem searchEntries_single (bytes : Bytes) (entry : Entry) :
    searchEntries bytes [entry] (keyBytes bytes entry.key) = .ok 0 := by
  have sorted : (([entry].map (Entry.view bytes)).map Prod.fst).Pairwise (· < ·) := by simp
  have splits := searchEntries_splits (keyBytes bytes entry.key) sorted
  cases result : searchEntries bytes [entry] (keyBytes bytes entry.key) with
  | ok i =>
    rw [result] at splits
    obtain ⟨found, isFound, -⟩ := splits
    have inside := (List.getElem?_eq_some_iff.mp isFound).1
    obtain rfl : i = 0 := by simpa using inside
    rfl
  | error i =>
    rw [result] at splits
    obtain ⟨bound, below, above⟩ := splits
    rcases Nat.eq_zero_or_pos i with rfl | positive
    · exact absurd (above (Entry.view bytes entry) (by simp)) (lt_irrefl _)
    · obtain rfl : i = 1 := by
        simp only [List.length_singleton] at bound
        omega
      exact absurd (below (Entry.view bytes entry) (by simp)) (lt_irrefl _)

theorem long_value_stored (committed : Pages) {key value : Bytes}
    (fits : CowBTree.keyFits pageSize key = true) (long : maxRecordLen pageSize < value.length) :
    ∃ tree first, (CowBTree.empty pageSize).put committed key value = .ok tree ∧
      tree.pageSize = pageSize ∧ tree.hasPending = true ∧ tree.pendingRoot ≠ 0 ∧
      tree.dirty[tree.pendingRoot]? =
        some (.decoded (.leaf [] [⟨.owned key, .overflow first value.length⟩])) := by
  let begun : CowBTree := (CowBTree.empty pageSize).beginTxn
  have spills : inlineEntryFits begun.pageSize key value = false := by
    rw [Bool.eq_false_iff, Ne, CowBTree.inlineEntryFits_iff]
    simp only [maxRecordLen, walRegionLen, walBlocks, headerSize, slotSize] at long ⊢
    change ¬ _ ≤ pageSize / 2
    omega
  have begunFits : CowBTree.keyFits begun.pageSize key = true := fits
  obtain ⟨stored, held, isStored, grown, overflows, -⟩ :=
    CowBTree.storeValue_spec value committed begunFits Nat.one_pos
  obtain ⟨first, rfl⟩ := overflows spills
  let entry : Entry := { key := .owned key, value := .overflow first value.length }
  let tree : CowBTree := { held.allocPage.2.putNode held.pendingNext (.leaf [] [entry]) with
    pendingRoot := held.pendingNext
    pendingOps := held.pendingOps.insert key (some value) }
  have positive : 0 < held.pendingNext := Nat.lt_of_lt_of_le Nat.one_pos grown.next_le
  have inserted : CowBTree.insertInto committed key value begun.depth begun 0 =
      .ok (.replaced held.pendingNext,
        held.allocPage.2.putNode held.pendingNext (.leaf [] [entry])) := by
    change CowBTree.insertInto _ key value (1 + 1) begun 0 = _
    rw [CowBTree.insertInto, if_pos rfl, isStored]
    rfl
  refine ⟨tree, first, ?_, grown.pageSize, grown.hasPending, positive.ne', ?_⟩
  · have accepted : CowBTree.keyFits (CowBTree.empty pageSize).pageSize key = true := fits
    simp only [CowBTree.put, accepted]
    change (CowBTree.insertInto _ key value begun.depth begun 0 >>= _) = _
    rw [inserted]
    rfl
  · have shown := CowBTree.putNode_sets held.allocPage.2 held.pendingNext (.leaf [] [entry])
      held.pendingNext
    rw [if_pos rfl] at shown
    exact shown

theorem long_value_refused {key value : Bytes} (fits : CowBTree.keyFits pageSize key = true)
    (long : maxRecordLen pageSize < value.length) :
    ∃ after, (Store.empty pageSize).apply (.put key value) = .ok after ∧
      ∃ message, after.get key = .error (.corrupt message) := by
  obtain ⟨tree, first, put, size, pending, valid, found⟩ :=
    long_value_stored (Store.empty pageSize).pages fits long
  refine ⟨{ Store.empty pageSize with tree }, ?_, s!"overflow value length {value.length} exceeds the write-ahead log capacity {maxRecordLen pageSize}", ?_⟩
  · simp only [Store.apply]
    change ((CowBTree.empty pageSize).put (Store.empty pageSize).pages key value >>= _) = _
    rw [put]
    rfl
  · have stores : ({ Store.empty pageSize with tree } : Store).pages =
        (Store.empty pageSize).pages := by
      simp only [Store.pages, size]
      rfl
    have shown : tree.nodeAt (Store.empty pageSize).pages tree.pendingRoot =
        .ok (.leaf [] [⟨.owned key, .overflow first value.length⟩]) := by
      rw [CowBTree.nodeAt, found]
    simp only [Store.get, CowBTree.get, stores, CowBTree.readPages, CowBTree.readRoot,
      CowBTree.readDepth, pending, if_true, size]
    rw [CowBTree.descendGet]
    change (if tree.pendingRoot = 0 then _ else
      tree.nodeAt (Store.empty pageSize).pages tree.pendingRoot >>= _) = _
    have search : searchEntries [] [⟨.owned key, .overflow first value.length⟩] key = .ok 0 :=
      searchEntries_single [] ⟨.owned key, .overflow first value.length⟩
    rw [if_neg valid, shown]
    simp only [bind, Except.bind, search, List.getElem?_cons_zero,
      CowBTree.resolveScannedAt, if_pos long]

/-- The shortest such value on the smallest page. -/
theorem long_value_breaks_map : ∃ after,
    (Store.empty 128).apply (.put [1] (List.replicate 32769 0)) = .ok after ∧
      CowBTree.keyFits 128 [1] = true ∧
      after.get [1] ≠ .ok (mapOf [.put [1] (List.replicate 32769 0)] [1]) := by
  have fits : CowBTree.keyFits 128 [1] = true := by decide
  have long : maxRecordLen 128 < (List.replicate 32769 (0 : UInt8)).length := by
    rw [List.length_replicate]
    decide
  obtain ⟨after, isAfter, message, refused⟩ := long_value_refused fits long
  refine ⟨after, isAfter, fits, fun equal => ?_⟩
  rw [refused] at equal
  cases equal

end InlaySql.Btree
