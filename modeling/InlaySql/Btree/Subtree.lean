import InlaySql.Btree.View

/-!
# Well-formed subtrees

`Subtree` relates a page to the entries it stands for and to the set of pages those
rest on: the page itself, its overflow chains and, for an inner node, everything
below its children. Pages are named once, so a change outside that set leaves the
subtree as it was.
-/

namespace InlaySql.Btree

open List Lib Wal CowBTree

/-- Page `id` decodes to a node that says `view`. -/
def Pages.Shows (pages : Pages) (id : Nat) (view : NodeView) : Prop :=
  ∃ node, pages.node id = .ok node ∧ node.Ranged ∧ node.view = view

/-- `later` says on `ids` everything `pages` says. -/
def Pages.Keeps (pages later : Pages) (ids : Finset Nat) : Prop :=
  ∀ id ∈ ids, (∀ view, pages.Shows id view -> later.Shows id view) ∧
    ∀ link, pages.overflow id = .ok link -> later.overflow id = .ok link

theorem Pages.Keeps.mono {pages later : Pages} {ids fewer : Finset Nat}
    (keeps : pages.Keeps later ids) (subset : fewer ⊆ ids) : pages.Keeps later fewer :=
  fun id member => keeps id (subset member)

/-- The overflow chain from `id` spells `value` over the pages in `rests`. -/
inductive Chain (pages : Pages) (payload : Nat) : Nat -> Bytes -> Finset Nat -> Prop where
  | done (id : Nat) : Chain pages payload id [] ∅
  | link {id next data value rests} (valid : id ≠ 0)
      (page : pages.overflow id = .ok (next, data)) (size : data.length = payload)
      (more : value ≠ []) (start : data.take value.length = value.take payload)
      (fresh : id ∉ rests) (rest : Chain pages payload next (value.drop payload) rests) :
      Chain pages payload id value (insert id rests)

/-- What a leaf value stands for. -/
def ValueHolds (pageSize : Nat) (pages : Pages) : ValueView -> Bytes -> Finset Nat -> Prop
  | .inline bytes, value, rests => value = bytes ∧ rests = ∅
  | .overflow first length, value, rests =>
    value ≠ [] ∧ value.length = length ∧ length ≤ maxRecordLen pageSize ∧
      Chain pages (overflowPayloadSize pageSize) first value rests

/-- The cells of a leaf stand for `entries`; each fits half a page. -/
inductive Held (pageSize : Nat) (pages : Pages) :
    List (Bytes × ValueView) -> List (Bytes × Bytes) -> Finset Nat -> Prop where
  | nil : Held pageSize pages [] [] ∅
  | cons {key view value rests cells entries others}
      (holds : ValueHolds pageSize pages view value rests)
      (fits : keyFits pageSize key = true)
      (small : headerSize + slotSize + view.cellSize key ≤ pageSize / 2)
      (apart : Disjoint rests others) (tail : Held pageSize pages cells entries others) :
      Held pageSize pages ((key, view) :: cells) ((key, value) :: entries) (rests ∪ others)

/-- A leaf page with its entries. -/
def LeafHolds (pageSize : Nat) (pages : Pages) (id : Nat) (low high : Option Bytes)
    (entries : List (Bytes × Bytes)) (below : Finset Nat) : Prop :=
  ∃ cells, pages.Shows id (.leaf cells) ∧ cells ≠ [] ∧ leafViewSize cells ≤ pageSize ∧
    Fenced low high entries ∧ Held pageSize pages cells entries below

/-- An inner page over children that mean `meaning`. -/
def InnerHolds (pageSize : Nat) (pages : Pages) (meaning : Meaning Bytes Bytes Nat)
    (id : Nat) (low high : Option Bytes) (entries : List (Bytes × Bytes))
    (below : Finset Nat) : Prop :=
  ∃ leftmost cells, pages.Shows id (.internal leftmost cells) ∧
    internalViewSize cells ≤ pageSize ∧ (∀ cell ∈ cells, keyFits pageSize cell.1 = true) ∧
    Spine meaning low high leftmost cells entries below

/-- The subtree under a page, of at most the given height. Page 0 is empty. -/
def Subtree (pageSize : Nat) (pages : Pages) : Nat -> Meaning Bytes Bytes Nat
  | 0, id, _, _, entries, rests => id = 0 ∧ entries = [] ∧ rests = ∅
  | height + 1, id, low, high, entries, rests =>
    (id = 0 ∧ entries = [] ∧ rests = ∅) ∨
    ∃ below, id ≠ 0 ∧ rests = insert id below ∧ id ∉ below ∧
      (LeafHolds pageSize pages id low high entries below ∨
        InnerHolds pageSize pages (Subtree pageSize pages height) id low high entries below)

section Chain

variable {pages later : Pages} {payload : Nat} {id : Nat} {value : Bytes}
  {rests : Finset Nat}

section

variable (chain : Chain pages payload id value rests)

include chain

theorem Chain.frame (keeps : pages.Keeps later rests) : Chain later payload id value rests := by
  induction chain with
  | done id => exact .done id
  | link valid page size more start fresh rest ih =>
    refine .link valid ((keeps _ (Finset.mem_insert_self _ _)).2 _ page) size more start fresh ?_
    exact ih (keeps.mono (Finset.subset_insert _ _))

theorem Chain.read (positive : 0 < payload) (out : Bytes) (turns : Nat)
    (enough : value.length ≤ turns) :
    readChain pages (out ++ value).length turns id out = .ok (out ++ value) := by
  induction chain generalizing out turns with
  | done id =>
    unfold readChain
    simp
  | @link id next data value rests valid page size more start fresh rest ih =>
    have filled : 0 < value.length := length_pos_iff.mpr more
    cases turns with
    | zero => omega
    | succ turns =>
      have length : (out ++ value).length - out.length = value.length := by simp
      have grown : out ++ data.take value.length ++ value.drop payload = out ++ value := by
        rw [start, append_assoc, take_append_drop]
      have step := ih (out ++ data.take value.length) turns (by
        rw [length_drop]
        omega)
      rw [grown] at step
      unfold readChain
      rw [if_pos (by omega), if_neg valid]
      simp only [page, length]
      exact step

end

end Chain

section Held

variable {pageSize : Nat} {pages later : Pages} {cells : List (Bytes × ValueView)}
  {entries : List (Bytes × Bytes)} {rests : Finset Nat}

theorem ValueHolds.frame {view : ValueView} {value : Bytes}
    (holds : ValueHolds pageSize pages view value rests) (keeps : pages.Keeps later rests) :
    ValueHolds pageSize later view value rests := by
  cases view with
  | inline bytes => exact holds
  | overflow first length => exact ⟨holds.1, holds.2.1, holds.2.2.1, holds.2.2.2.frame keeps⟩

theorem ValueHolds.first_mem {first : Nat} {length : Nat} {value : Bytes}
    (holds : ValueHolds pageSize pages (.overflow first length) value rests) : first ∈ rests := by
  obtain ⟨more, -, -, chain⟩ := holds
  cases chain with
  | done => exact absurd rfl more
  | link => exact Finset.mem_insert_self _ _

section

variable (held : Held pageSize pages cells entries rests)

include held

theorem Held.frame (keeps : pages.Keeps later rests) : Held pageSize later cells entries rests := by
  induction held with
  | nil => exact .nil
  | cons holds fits small apart tail ih =>
    exact .cons (holds.frame (keeps.mono Finset.subset_union_left)) fits small apart
      (ih (keeps.mono Finset.subset_union_right))

theorem Held.keys : entries.map Prod.fst = cells.map Prod.fst := by
  induction held with
  | nil => rfl
  | cons _ _ _ _ _ ih => simp [ih]

end

theorem Held.append {more : List (Bytes × ValueView)} {others : List (Bytes × Bytes)}
    {otherRests : Finset Nat} (held : Held pageSize pages cells entries rests)
    (moreHeld : Held pageSize pages more others otherRests) (apart : Disjoint rests otherRests) :
    Held pageSize pages (cells ++ more) (entries ++ others) (rests ∪ otherRests) := by
  induction held with
  | nil => simpa using moreHeld
  | cons holds fits small inner tail ih =>
    rw [Finset.disjoint_union_left] at apart
    rw [cons_append, cons_append, Finset.union_assoc]
    exact .cons holds fits small (Finset.disjoint_union_right.mpr ⟨inner, apart.1⟩) (ih apart.2)

theorem Held.cut {front back : List (Bytes × ValueView)}
    (held : Held pageSize pages (front ++ back) entries rests) :
    ∃ left right leftRests rightRests, Held pageSize pages front left leftRests ∧
      Held pageSize pages back right rightRests ∧ entries = left ++ right ∧
      rests = leftRests ∪ rightRests ∧ Disjoint leftRests rightRests := by
  induction front generalizing entries rests with
  | nil => exact ⟨[], entries, ∅, rests, .nil, held, rfl, by simp, by simp⟩
  | cons head front ih =>
    cases held with
    | cons holds fits small apart tail =>
      obtain ⟨left, right, leftRests, rightRests, leftHeld, rightHeld, rfl, rfl, inner⟩ :=
        ih tail
      rw [Finset.disjoint_union_right] at apart
      exact ⟨_, right, _, rightRests, .cons holds fits small apart.1 leftHeld, rightHeld,
        rfl, by rw [Finset.union_assoc], Finset.disjoint_union_left.mpr ⟨apart.2, inner⟩⟩

section

variable (held : Held pageSize pages cells entries rests)

include held

theorem Held.first_mem : ∀ cell ∈ cells, ∀ first length, cell.2 = .overflow first length ->
      first ∈ rests ∧ length ≤ maxRecordLen pageSize := by
  induction held with
  | nil => simp
  | cons holds fits small apart tail ih =>
    intro cell member first length isOverflow
    rcases mem_cons.mp member with rfl | inTail
    · subst isOverflow
      exact ⟨Finset.mem_union_left _ holds.first_mem, holds.2.2.1⟩
    · have found := ih cell inTail first length isOverflow
      exact ⟨Finset.mem_union_right _ found.1, found.2⟩

theorem Held.cell : ∀ cell ∈ cells, keyFits pageSize cell.1 = true ∧
      headerSize + slotSize + cell.2.cellSize cell.1 ≤ pageSize / 2 := by
  induction held with
  | nil => simp
  | cons holds fits small apart tail ih =>
    intro cell member
    rcases mem_cons.mp member with rfl | inTail
    · exact ⟨fits, small⟩
    · exact ih cell inTail

end

theorem Held.halve {mid : Nat} {low high : Option Bytes}
    (held : Held pageSize pages cells entries rests) (fenced : Fenced low high entries)
    (positive : 0 < mid) (inside : mid < cells.length) :
    ∃ left right leftRests rightRests,
      entries = left ++ right ∧ rests = leftRests ∪ rightRests ∧ Disjoint leftRests rightRests ∧
        Held pageSize pages (cells.take mid) left leftRests ∧
        Held pageSize pages (cells.drop mid) right rightRests ∧
        Parts low high cells[mid].1 ∧
        Fenced low (some cells[mid].1) left ∧ Fenced (some cells[mid].1) high right := by
  obtain ⟨left, right, leftRests, rightRests, leftHeld, rightHeld, rfl, rfl, apart⟩ :=
    Held.cut (by rwa [take_append_drop] :
      Held pageSize pages (cells.take mid ++ cells.drop mid) entries rests)
  have leftKeys := leftHeld.keys
  have rightKeys := rightHeld.keys
  rw [drop_eq_getElem_cons inside] at rightKeys
  cases right with
  | nil => simp only [map_nil, map_cons, reduceCtorEq] at rightKeys
  | cons first right =>
    have isFirst : first.1 = cells[mid].1 := (List.cons.inj rightKeys).1
    have filled : left ≠ [] := by
      rintro rfl
      have length := congrArg List.length leftKeys
      simp only [map_nil, length_nil, length_map, length_take] at length
      omega
    obtain ⟨parts, leftFenced, rightFenced⟩ := fenced.cut filled
    rw [<- isFirst]
    exact ⟨left, first :: right, leftRests, rightRests, rfl, rfl, apart, leftHeld, rightHeld,
      parts, leftFenced, rightFenced⟩

section

variable (held : Held pageSize pages cells entries rests)

include held

theorem Held.key_mem {entry : Bytes × Bytes} (member : entry ∈ entries) :
    ∃ cell ∈ cells, cell.1 = entry.1 := by
  have found : entry.1 ∈ entries.map Prod.fst := mem_map_of_mem member
  rw [held.keys] at found
  exact mem_map.mp found

theorem Held.entry_at {index : Nat} {cell : Bytes × ValueView} (found : cells[index]? = some cell) :
    ∃ value part, entries[index]? = some (cell.1, value) ∧
      ValueHolds pageSize pages cell.2 value part := by
  induction held generalizing index with
  | nil => simp at found
  | cons holds fits small apart tail ih =>
    cases index with
    | zero =>
      obtain rfl : _ = cell := by simpa using found
      exact ⟨_, _, rfl, holds⟩
    | succ index => exact ih (by simpa using found)

end

section Around

variable {low high : Option Bytes} {key : Bytes} {front middle back : List (Bytes × ValueView)}

section

variable (held : Held pageSize pages (front ++ middle ++ back) entries rests)

include held

theorem Held.around (below : ∀ cell ∈ front, cell.1 < key) (above : ∀ cell ∈ back, key < cell.1)
    (same : ∀ cell ∈ middle, cell.1 = key) :
    ∃ before here after frontRests middleRests backRests,
      Held pageSize pages front before frontRests ∧ Held pageSize pages back after backRests ∧
        entries = before ++ here ++ after ∧ rests = frontRests ∪ middleRests ∪ backRests ∧
        Disjoint frontRests backRests ∧ (∀ entry ∈ before, entry.1 < key) ∧
        (∀ entry ∈ after, key < entry.1) ∧ ∀ entry ∈ here, entry.1 = key := by
  obtain ⟨most, after, mostRests, backRests, mostHeld, backHeld, rfl, rfl, apart⟩ := held.cut
  obtain ⟨before, here, frontRests, middleRests, frontHeld, middleHeld, rfl, rfl, -⟩ :=
    mostHeld.cut
  rw [Finset.disjoint_union_left] at apart
  refine ⟨before, here, after, frontRests, middleRests, backRests, frontHeld, backHeld, rfl, rfl,
    apart.1, ?_, ?_, ?_⟩
  · intro entry member
    obtain ⟨cell, inFront, isKey⟩ := frontHeld.key_mem member
    exact isKey ▸ below cell inFront
  · intro entry member
    obtain ⟨cell, inBack, isKey⟩ := backHeld.key_mem member
    exact isKey ▸ above cell inBack
  · intro entry member
    obtain ⟨cell, inMiddle, isKey⟩ := middleHeld.key_mem member
    exact isKey ▸ same cell inMiddle

theorem Held.place (fenced : Fenced low high entries) (inside : Within low high key)
    (below : ∀ cell ∈ front, cell.1 < key) (above : ∀ cell ∈ back, key < cell.1)
    (same : ∀ cell ∈ middle, cell.1 = key) {view : ValueView} {value : Bytes} {fresh : Finset Nat}
    (holds : ValueHolds pageSize pages view value fresh) (fits : keyFits pageSize key = true)
    (small : headerSize + slotSize + view.cellSize key ≤ pageSize / 2)
    (apart : Disjoint fresh rests) :
    ∃ placed placedRests, Held pageSize pages (front ++ [(key, view)] ++ back) placed placedRests ∧
        Fenced low high placed ∧ Overlay entries key (some value) placed ∧
        placedRests ⊆ rests ∪ fresh := by
  obtain ⟨before, here, after, frontRests, middleRests, backRests, frontHeld, backHeld, rfl, rfl,
    sides, inFront, inBack, inMiddle⟩ := held.around below above same
  rw [Finset.disjoint_union_right, Finset.disjoint_union_right] at apart
  have single : Held pageSize pages [(key, view)] [(key, value)] fresh := by
    simpa using Held.cons holds fits small (Finset.disjoint_empty_right _) .nil
  refine ⟨before ++ [(key, value)] ++ after, frontRests ∪ fresh ∪ backRests,
    (frontHeld.append single apart.1.1.symm).append backHeld
      (Finset.disjoint_union_left.mpr ⟨sides, apart.2⟩),
    fenced.place value inside inFront inBack, overlay_place value inMiddle inFront inBack, ?_⟩
  intro id member
  simp only [Finset.mem_union] at member ⊢
  tauto

theorem Held.drop (fenced : Fenced low high entries) (below : ∀ cell ∈ front, cell.1 < key)
    (above : ∀ cell ∈ back, key < cell.1) (same : ∀ cell ∈ middle, cell.1 = key) :
    ∃ dropped droppedRests, Held pageSize pages (front ++ back) dropped droppedRests ∧
        Fenced low high dropped ∧ Overlay entries key none dropped ∧ droppedRests ⊆ rests := by
  obtain ⟨before, here, after, frontRests, middleRests, backRests, frontHeld, backHeld, rfl, rfl,
    sides, inFront, inBack, inMiddle⟩ := held.around below above same
  refine ⟨before ++ after, frontRests ∪ backRests, frontHeld.append backHeld sides,
    fenced.sublist (by simp), overlay_drop inMiddle inFront inBack, ?_⟩
  intro id member
  simp only [Finset.mem_union] at member ⊢
  tauto

end

end Around

end Held

section Subtree

variable {pageSize height : Nat} {pages later : Pages} {id : Nat} {low high : Option Bytes}
  {entries : List (Bytes × Bytes)} {rests : Finset Nat}

theorem Subtree.empty : Subtree pageSize pages height 0 low high [] ∅ := by
  cases height with
  | zero => exact ⟨rfl, rfl, rfl⟩
  | succ height => exact .inl ⟨rfl, rfl, rfl⟩

theorem Subtree.of_zero (subtree : Subtree pageSize pages height 0 low high entries rests) :
    entries = [] ∧ rests = ∅ := by
  cases height with
  | zero => exact subtree.2
  | succ height =>
    rcases subtree with ⟨-, nothing⟩ | ⟨below, nonzero, -⟩
    · exact nothing
    · exact absurd rfl nonzero

section

variable (subtree : Subtree pageSize pages height id low high entries rests)

include subtree

theorem Subtree.of_ne (nonzero : id ≠ 0) :
    ∃ less below, height = less + 1 ∧ rests = insert id below ∧
      id ∉ below ∧ (LeafHolds pageSize pages id low high entries below ∨
        InnerHolds pageSize pages (Subtree pageSize pages less) id low high entries below) := by
  cases height with
  | zero => exact absurd subtree.1 nonzero
  | succ height =>
    rcases subtree with ⟨isZero, -⟩ | ⟨below, -, rest⟩
    · exact absurd isZero nonzero
    · exact ⟨height, below, rfl, rest⟩

theorem Subtree.id_mem : id = 0 ∨ id ∈ rests := by
  by_cases isZero : id = 0
  · exact .inl isZero
  · obtain ⟨_, below, -, rfl, -⟩ := subtree.of_ne isZero
    exact .inr (Finset.mem_insert_self _ _)

end

theorem Spine.child_mem {child : Nat} {cells : List (Bytes × Nat)}
    (spine : Spine (Subtree pageSize pages height) low high child cells entries rests) :
    (child = 0 ∨ child ∈ rests) ∧ ∀ cell ∈ cells, cell.2 = 0 ∨ cell.2 ∈ rests := by
  induction spine with
  | last leaf => exact ⟨leaf.id_mem, by simp⟩
  | cons parts first others apart ih =>
    refine ⟨first.id_mem.imp_right (Finset.mem_union_left _), ?_⟩
    intro cell member
    rcases mem_cons.mp member with rfl | inCells
    · exact ih.1.imp_right (Finset.mem_union_right _)
    · exact (ih.2 cell inCells).imp_right (Finset.mem_union_right _)

theorem Subtree.mono {taller : Nat} (subtree : Subtree pageSize pages height id low high entries rests)
    (bound : height ≤ taller) : Subtree pageSize pages taller id low high entries rests := by
  induction height generalizing taller id low high entries rests with
  | zero =>
    obtain ⟨rfl, rfl, rfl⟩ := subtree
    exact .empty
  | succ height ih =>
    obtain ⟨more, rfl⟩ : ∃ more, taller = more + 1 := ⟨taller - 1, by omega⟩
    rcases subtree with nothing | ⟨below, nonzero, isRests, fresh, leaf | inner⟩
    · exact .inl nothing
    · exact .inr ⟨below, nonzero, isRests, fresh, .inl leaf⟩
    · obtain ⟨leftmost, cells, shows, size, fits, spine⟩ := inner
      refine .inr ⟨below, nonzero, isRests, fresh, .inr ⟨leftmost, cells, shows, size, fits, ?_⟩⟩
      exact spine.frame fun _ _ _ _ _ _ subtree => ih subtree (by omega)

section

variable (subtree : Subtree pageSize pages height id low high entries rests)

include subtree

theorem Subtree.frame (keeps : pages.Keeps later rests) :
    Subtree pageSize later height id low high entries rests := by
  induction height generalizing id low high entries rests with
  | zero => exact subtree
  | succ height ih =>
    rcases subtree with nothing | ⟨below, nonzero, rfl, fresh, leaf | inner⟩
    · exact .inl nothing
    · obtain ⟨cells, shows, filled, size, fenced, held⟩ := leaf
      refine .inr ⟨below, nonzero, rfl, fresh, .inl ⟨cells, ?_, filled, size, fenced, ?_⟩⟩
      · exact (keeps id (Finset.mem_insert_self _ _)).1 _ shows
      · exact held.frame (keeps.mono (Finset.subset_insert _ _))
    · obtain ⟨leftmost, cells, shows, size, fits, spine⟩ := inner
      refine .inr ⟨below, nonzero, rfl, fresh, .inr ⟨leftmost, cells, ?_, size, fits, ?_⟩⟩
      · exact (keeps id (Finset.mem_insert_self _ _)).1 _ shows
      · refine spine.frame fun _ _ _ _ part within subtree => ih subtree ?_
        exact keeps.mono (within.trans (Finset.subset_insert _ _))

theorem Subtree.fenced : Fenced low high entries := by
  induction height generalizing id low high entries rests with
  | zero =>
    obtain ⟨-, rfl, -⟩ := subtree
    exact .nil
  | succ height ih =>
    rcases subtree with ⟨-, rfl, -⟩ | ⟨below, -, -, -, leaf | inner⟩
    · exact .nil
    · obtain ⟨cells, -, -, -, fenced, -⟩ := leaf
      exact fenced
    · obtain ⟨leftmost, cells, -, -, -, spine⟩ := inner
      exact spine.fenced fun _ _ _ _ _ => ih

theorem Subtree.card_height : Subtree pageSize pages rests.card id low high entries rests := by
  induction height generalizing id low high entries rests with
  | zero =>
    obtain ⟨rfl, rfl, rfl⟩ := subtree
    exact .empty
  | succ height ih =>
    rcases subtree with ⟨rfl, rfl, rfl⟩ | ⟨below, nonzero, rfl, fresh, leaf | inner⟩
    · exact .empty
    · rw [Finset.card_insert_of_notMem fresh]
      exact .inr ⟨below, nonzero, rfl, fresh, .inl leaf⟩
    · rw [Finset.card_insert_of_notMem fresh]
      obtain ⟨leftmost, cells, shows, size, fits, spine⟩ := inner
      refine .inr ⟨below, nonzero, rfl, fresh, .inr ⟨leftmost, cells, shows, size, fits, ?_⟩⟩
      refine spine.frame fun _ _ _ _ part within subtree => ?_
      exact (ih subtree).mono (Finset.card_le_card within)

end

end Subtree

/-! ## Descent -/

/-- The child a key belongs under, with what lies on both sides of it. -/
structure Branch where
  child : Nat
  low : Option Bytes
  high : Option Bytes
  front : List (Bytes × Bytes)
  middle : List (Bytes × Bytes)
  back : List (Bytes × Bytes)
  childRests : Finset Nat
  otherRests : Finset Nat

/-- How an inner node routes a key: to one child, which any spine between the same
fences can replace. -/
structure Branch.Routed (branch : Branch) (pageSize : Nat) (pages : Pages) (height : Nat)
    (key : Bytes) (bytes : Bytes) (leftmost : Nat) (cells : List Separator)
    (low high : Option Bytes) (entries : List (Bytes × Bytes)) (below : Finset Nat) : Prop where
  index_le : childIndex bytes cells key ≤ cells.length
  pointer : childPointer bytes cells leftmost key = branch.child
  subtree : Subtree pageSize pages height branch.child branch.low branch.high branch.middle
    branch.childRests
  inside : Within branch.low branch.high key
  entries : entries = branch.front ++ branch.middle ++ branch.back
  front : ∀ entry ∈ branch.front, entry.1 ≠ key
  back : ∀ entry ∈ branch.back, entry.1 ≠ key
  rests : below = branch.otherRests ∪ branch.childRests
  apart : Disjoint branch.otherRests branch.childRests
  replace : ∀ later taller newChild inserted newMiddle newRests,
    pages.Keeps later branch.otherRests ->
    Spine (Subtree pageSize later taller) branch.low branch.high newChild inserted newMiddle
      newRests ->
    Disjoint branch.otherRests newRests -> ∃ tallest,
      Spine (Subtree pageSize later tallest) low high
        (spliceChild leftmost (cells.map (Separator.view bytes)) newChild inserted
          (childIndex bytes cells key)).1
        (spliceChild leftmost (cells.map (Separator.view bytes)) newChild inserted
          (childIndex bytes cells key)).2
        (branch.front ++ newMiddle ++ branch.back) (branch.otherRests ∪ newRests)

theorem InnerHolds.routed {pageSize height : Nat} {pages : Pages} {id : Nat} {key : Bytes}
    {low high : Option Bytes} {entries : List (Bytes × Bytes)} {below : Finset Nat}
    (inner : InnerHolds pageSize pages (Subtree pageSize pages height) id low high entries below)
    (inside : Within low high key) :
    ∃ bytes leftmost cells branch, pages.node id = .ok (.internal bytes leftmost cells) ∧
      internalSize bytes cells ≤ pageSize ∧
      (∀ cell ∈ cells.map (Separator.view bytes), keyFits pageSize cell.1 = true) ∧
      Branch.Routed branch pageSize pages height key bytes leftmost cells low high entries
        below := by
  obtain ⟨shownLeftmost, shownCells, ⟨node, found, -, isView⟩, size, fits, spine⟩ := inner
  cases node with
  | leaf bytes entries => simp [Node.view] at isView
  | internal bytes leftmost cells =>
    obtain ⟨rfl, rfl⟩ : leftmost = shownLeftmost ∧
        cells.map (Separator.view bytes) = shownCells := by simpa [Node.view] using isView
    have routes := childIndex_routes key spine.separators.1
    obtain ⟨target, childLow, childHigh, front, middle, back, childRests, otherRests, slot,
      meant, childInside, isEntries, inFront, inBack, isRests, apart, replace⟩ :=
      spine.route inside routes fun _ _ _ _ _ subtree => subtree.fenced
    have bound : childIndex bytes cells key ≤ cells.length := by simpa using routes.1
    have isTarget : childPointer bytes cells leftmost key = target := by
      rw [childAt_slot bound] at slot
      exact Option.some.inj slot
    refine ⟨bytes, leftmost, cells, ⟨target, childLow, childHigh, front, middle, back,
      childRests, otherRests⟩, found, by rwa [internalSize_eq], fits, ⟨bound, isTarget, meant,
      childInside, isEntries, inFront, inBack, isRests, apart, ?_⟩⟩
    intro later taller newChild inserted newMiddle newRests keeps newSpine newApart
    refine ⟨max height taller, replace _ newChild inserted newMiddle newRests ?_ ?_ newApart⟩
    · intro child low high entries part within subtree
      exact (subtree.frame (keeps.mono within)).mono (le_max_left _ _)
    · exact newSpine.frame fun _ _ _ _ _ _ subtree => subtree.mono (le_max_right _ _)

section

variable {pages : Pages} {id : Nat} {bytes : Bytes}

theorem descend_internal {leftmost : Nat} {cells : List Separator} (key : Bytes)
    (found : pages.node id = .ok (.internal bytes leftmost cells)) :
    descend pages id key =
      .ok (.internal (childIndex bytes cells key) (childPointer bytes cells leftmost key)) := by
  rw [descend, found]
  rfl

theorem descend_leaf {entries : List Entry} (key : Bytes)
    (found : pages.node id = .ok (.leaf bytes entries)) :
    descend pages id key = .ok .leaf := by
  rw [descend, found]
  rfl

end

theorem LeafHolds.cells {pageSize : Nat} {pages : Pages} {id : Nat} {low high : Option Bytes}
    {contents : List (Bytes × Bytes)} {below : Finset Nat}
    (leaf : LeafHolds pageSize pages id low high contents below) :
    ∃ bytes entries, pages.node id = .ok (.leaf bytes entries) ∧
      (∀ entry ∈ entries, entry.value.Ranged bytes) ∧ leafSize bytes entries ≤ pageSize ∧
      Fenced low high contents ∧
      Held pageSize pages (entries.map (Entry.view bytes)) contents below ∧
      ((entries.map (Entry.view bytes)).map Prod.fst).Pairwise (· < ·) := by
  obtain ⟨cells, ⟨node, found, ranged, isView⟩, -, size, fenced, held⟩ := leaf
  cases node with
  | internal bytes leftmost cells => simp [Node.view] at isView
  | leaf bytes entries =>
    obtain rfl : entries.map (Entry.view bytes) = cells := by simpa [Node.view] using isView
    refine ⟨bytes, entries, found, ranged, by rwa [leafSize_eq ranged], fenced, held, ?_⟩
    rw [<- held.keys]
    exact pairwise_map.mpr fenced.sorted

end InlaySql.Btree
