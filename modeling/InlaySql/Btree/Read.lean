import InlaySql.Btree.Subtree

/-!
# Lookups and range walks

A lookup under a well-formed page answers from the entries the page stands for. A
walk collects the entries its bounds admit, in key order, up to its limit: a
subtree it skips holds none of them.
-/

namespace InlaySql.Btree

open List Option Lib Wal

namespace CowBTree

section Values

variable {pageSize : Nat} {pages : Pages} {bytes value : Bytes} {rests : Finset Nat}

theorem resolveScannedAt_eq {stored : ValueRef} (wide : overflowHeaderSize < pageSize)
    (holds : ValueHolds pageSize pages (stored.view bytes) value rests) :
    resolveScannedAt pageSize pages bytes stored = .ok value := by
  cases stored with
  | inline range =>
    obtain ⟨rfl, -⟩ := holds
    rfl
  | owned owned =>
    obtain ⟨rfl, -⟩ := holds
    rfl
  | overflow first length =>
    obtain ⟨-, rfl, short, chain⟩ := holds
    have positive : 0 < overflowPayloadSize pageSize := by
      rw [overflowPayloadSize]
      omega
    have read := chain.read positive [] value.length le_rfl
    rw [nil_append] at read
    simp only [resolveScannedAt]
    rw [if_neg (by omega)]
    exact read

end Values

/-! ## Lookup -/

section Lookup

variable {pageSize : Nat} {pages : Pages} {key : Bytes} {low high : Option Bytes}

/-- `result` is what the entries hold under `key`. -/
def Answers (entries : List (Bytes × Bytes)) (key : Bytes) (result : Option Bytes) : Prop :=
  ∀ value, result = some value ↔ (key, value) ∈ entries

variable {entries : List (Bytes × Bytes)}

theorem leaf_answers {id : Nat} {below : Finset Nat} (wide : overflowHeaderSize < pageSize)
    (valid : id ≠ 0) (leaf : LeafHolds pageSize pages id low high entries below) (depth : Nat) :
    ∃ result, descendGet pageSize pages key (depth + 1) id = .ok result ∧
      Answers entries key result := by
  obtain ⟨bytes, cells, found, -, -, fenced, held, sorted⟩ := leaf.cells
  have splits := searchEntries_splits key sorted
  rw [descendGet, if_neg valid, found]
  simp only [bind, Except.bind]
  cases search : searchEntries bytes cells key with
  | ok i =>
    rw [search] at splits
    obtain ⟨cell, isCell, isKey, -, -⟩ := splits
    have isView : (cells.map (Entry.view bytes))[i]? = some (Entry.view bytes cell) := by
      rw [getElem?_map, isCell]
      rfl
    obtain ⟨value, part, isEntry, holds⟩ := held.entry_at isView
    have stored : (key, value) ∈ entries := by
      rw [<- isKey]
      exact mem_of_getElem? isEntry
    refine ⟨some value, ?_, fun other => ⟨?_, fun member => ?_⟩⟩
    · simp only [isCell, resolveScannedAt_eq wide holds]
      rfl
    · rintro ⟨⟩
      exact stored
    · exact congrArg some (fenced.unique stored member)
  | error i =>
    rw [search] at splits
    obtain ⟨-, below, above⟩ := splits
    refine ⟨none, rfl, fun other => ⟨by simp, fun member => ?_⟩⟩
    obtain ⟨cell, inCells, isKey⟩ := held.key_mem member
    rw [<- take_append_drop i cells, map_append, mem_append] at inCells
    rcases inCells with inFront | inBack
    · exact absurd (below cell inFront) (by simp [isKey])
    · exact absurd (above cell inBack) (by simp [isKey])

theorem descendGet_spec (wide : overflowHeaderSize < pageSize) {depth height id : Nat}
    {rests : Finset Nat} (subtree : Subtree pageSize pages height id low high entries rests)
    (inside : Within low high key) (deep : height < depth) :
    ∃ result, descendGet pageSize pages key depth id = .ok result ∧
      Answers entries key result := by
  induction depth generalizing height id low high entries rests with
  | zero => omega
  | succ depth ih =>
    by_cases valid : id = 0
    · subst valid
      obtain ⟨rfl, -⟩ := subtree.of_zero
      exact ⟨none, by rw [descendGet, if_pos rfl], by simp [Answers]⟩
    · obtain ⟨less, below, rfl, rfl, outside, leaf | inner⟩ := subtree.of_ne valid
      · exact leaf_answers wide valid leaf depth
      · obtain ⟨bytes, leftmost, cells, branch, found, -, -, routed⟩ := inner.routed inside
        obtain ⟨result, isResult, answers⟩ := ih routed.subtree routed.inside (by omega)
        refine ⟨result, ?_, fun value => (answers value).trans ?_⟩
        · rw [descendGet, if_neg valid, found]
          change descendGet pageSize pages key depth (childPointer bytes cells leftmost key) = _
          rw [routed.pointer]
          exact isResult
        · rw [routed.entries, mem_append, mem_append]
          refine ⟨fun member => .inl (.inr member), ?_⟩
          rintro ((member | member) | member)
          · exact absurd rfl (routed.front _ member)
          · exact member
          · exact absurd rfl (routed.back _ member)

end Lookup

/-! ## Range walks -/

namespace WalkBounds

variable {bounds : WalkBounds}

/-- The first entries up to the limit. -/
def clip (bounds : WalkBounds) (entries : List (Bytes × Bytes)) : List (Bytes × Bytes) :=
  match bounds.limit with
  | some limit => entries.take limit
  | none => entries

/-- The entries the bounds admit. -/
def wanted (bounds : WalkBounds) (entries : List (Bytes × Bytes)) : List (Bytes × Bytes) :=
  entries.filter fun entry => bounds.admits entry.1

@[simp] theorem wanted_nil : bounds.wanted [] = [] := rfl

@[simp] theorem wanted_append (front back : List (Bytes × Bytes)) :
    bounds.wanted (front ++ back) = bounds.wanted front ++ bounds.wanted back :=
  filter_append front back

variable {entries out : List (Bytes × Bytes)}

theorem wanted_eq_nil (none : ∀ entry ∈ entries, bounds.admits entry.1 = false) :
    bounds.wanted entries = [] := by
  rw [wanted, filter_eq_nil_iff]
  intro entry member
  simp [none entry member]

theorem clip_clip (front back : List (Bytes × Bytes)) :
    bounds.clip (bounds.clip front ++ back) = bounds.clip (front ++ back) := by
  unfold clip
  cases bounds.limit with
  | none => rfl
  | some limit =>
    simp only [List.take_append, take_take, min_self, length_take]
    congr 2
    omega

theorem clip_idem (entries : List (Bytes × Bytes)) :
    bounds.clip (bounds.clip entries) = bounds.clip entries := by
  simpa using bounds.clip_clip entries []

theorem clip_of_full (more : List (Bytes × Bytes)) (clipped : bounds.clip out = out)
    (isFull : bounds.full out.length = true) : bounds.clip (out ++ more) = out := by
  unfold clip full at *
  cases isLimit : bounds.limit with
  | none => simp [isLimit] at isFull
  | some limit =>
    simp only [isLimit] at clipped isFull ⊢
    have most : out.length ≤ limit := by
      have length := congrArg List.length clipped
      rw [length_take] at length
      omega
    have least : limit ≤ out.length := by simpa using isFull
    rw [take_append_of_le_length least, clipped]

theorem clip_snoc (entry : Bytes × Bytes) (room : ¬ bounds.full out.length = true) :
    bounds.clip (out ++ [entry]) = out ++ [entry] := by
  unfold clip full at *
  cases isLimit : bounds.limit with
  | none => rfl
  | some limit =>
    simp only [isLimit] at room ⊢
    have less : out.length < limit := by simpa using room
    exact take_of_length_le (by simpa using less)

theorem admits_iff {key : Bytes} : bounds.admits key = true ↔ bounds.start ≤ key ∧
    (∀ stop ∈ bounds.stop, key < stop) ∧ ∀ after ∈ bounds.after, after < key := by
  have first : (keyCmp key bounds.start).isLT = true ↔ ¬ bounds.start ≤ key := by simp
  have second : (bounds.stop.any fun stop => (keyCmp key stop).isGE) = true ↔
      ¬ ∀ stop ∈ bounds.stop, key < stop := by
    cases bounds.stop <;> simp
  unfold admits
  by_cases low : (keyCmp key bounds.start).isLT = true
  · simp [low, first.mp low]
  · rw [if_neg low]
    have isLow := not_not.mp fun wrong => low (first.mpr wrong)
    by_cases high : (bounds.stop.any fun stop => (keyCmp key stop).isGE) = true
    · rw [if_pos high]
      exact ⟨nofun, fun wanted => absurd wanted.2.1 (second.mp high)⟩
    · rw [if_neg high]
      have isHigh := not_not.mp fun wrong => high (second.mpr wrong)
      rw [and_iff_right isLow, and_iff_right isHigh]
      cases bounds.after with
      | none => simp
      | some after => simp

theorem wanted_of_stop_le (isEmpty : bounds.stop.any (· ≤ bounds.start) = true) :
    bounds.wanted entries = [] := by
  apply wanted_eq_nil
  intro entry _
  rw [Bool.eq_false_iff, Ne, admits_iff]
  rintro ⟨low, high, -⟩
  cases isStop : bounds.stop with
  | none => simp [isStop] at isEmpty
  | some stop =>
    have le : stop ≤ bounds.start := by simpa [isStop] using isEmpty
    exact absurd (low.trans_lt (high stop isStop)) (not_lt.mpr le)

theorem clip_nil : bounds.clip [] = [] := by
  unfold clip
  cases bounds.limit <;> simp

theorem admits_of_startsBelow {edge key : Bytes} (above : bounds.startsBelow edge = false)
    (below : key < edge) : bounds.admits key = false := by
  rw [Bool.eq_false_iff, Ne, admits_iff]
  rintro ⟨low, -, after⟩
  have starts : ¬ (keyCmp bounds.start edge).isGE = true := by
    simpa using low.trans_lt below
  rw [startsBelow, if_neg starts] at above
  cases isAfter : bounds.after with
  | none => simp [isAfter] at above
  | some mark =>
    have less := (after mark isAfter).trans below
    rw [isAfter] at above
    simp [keyCmp_isLT.mpr less] at above

end WalkBounds

section Walk

variable {pageSize : Nat} {pages : Pages} {bounds : WalkBounds} {low high : Option Bytes}

variable {entries out : List (Bytes × Bytes)} {rests : Finset Nat}

theorem walkEntries_spec (wide : overflowHeaderSize < pageSize) {bytes : Bytes}
    {cells : List Entry} (held : Held pageSize pages (cells.map (Entry.view bytes)) entries rests)
    (clipped : bounds.clip out = out) :
    walkEntries pageSize pages bounds bytes cells out =
      .ok (bounds.clip (out ++ bounds.wanted entries)) := by
  induction cells generalizing entries out rests with
  | nil =>
    cases held with
    | nil => simp [walkEntries, clipped]
  | cons cell cells ih =>
    rw [walkEntries]
    by_cases isFull : bounds.full out.length = true
    · rw [if_pos isFull, bounds.clip_of_full _ clipped isFull]
    · rw [if_neg isFull]
      cases held with
      | @cons _ _ value _ _ rest _ holds fits small apart tail =>
        by_cases admitted : bounds.admits (keyBytes bytes cell.key) = true
        · have more : bounds.wanted ((keyBytes bytes cell.key, value) :: rest) =
              (keyBytes bytes cell.key, value) :: bounds.wanted rest := by
            simp [WalkBounds.wanted, admitted]
          simp only [admitted, if_true, resolveScannedAt_eq wide holds]
          rw [more, <- singleton_append, <- append_assoc]
          exact ih tail (bounds.clip_snoc _ isFull)
        · have same : bounds.wanted ((keyBytes bytes cell.key, value) :: rest) =
              bounds.wanted rest := by
            simp [WalkBounds.wanted, admitted]
          simp only [admitted]
          rw [same]
          exact ih tail clipped

theorem wanted_of_skipped (fenced : Fenced low high entries)
    (skipped : (∃ separator, low = some separator ∧ bounds.belowUpper separator = false) ∨
      ∃ edge, high = some edge ∧ bounds.startsBelow edge = false) : bounds.wanted entries = [] := by
  apply WalkBounds.wanted_eq_nil
  intro entry member
  have inside := fenced.within entry member
  rcases skipped with ⟨separator, rfl, isBelow⟩ | ⟨edge, rfl, isAbove⟩
  · rw [Bool.eq_false_iff, Ne, WalkBounds.admits_iff]
    rintro ⟨-, upper, -⟩
    unfold WalkBounds.belowUpper at isBelow
    cases isStop : bounds.stop with
    | none => simp [isStop] at isBelow
    | some stop =>
      have less := (inside.1 separator rfl).trans_lt (upper stop isStop)
      simp [isStop, less] at isBelow
  · exact WalkBounds.admits_of_startsBelow isAbove (inside.2 edge rfl)

section Spine

variable {meaning : Meaning Bytes Bytes Nat}
  {visit : Nat -> List (Bytes × Bytes) -> Except Error (List (Bytes × Bytes))}
  (visits : ∀ child low high entries rests out, meaning child low high entries rests ->
    bounds.clip out = out -> visit child out = .ok (bounds.clip (out ++ bounds.wanted entries)))
  (fenced : ∀ child low high entries rests, meaning child low high entries rests ->
    Fenced low high entries)
include visits fenced

variable {entries out : List (Bytes × Bytes)} {rests : Finset Nat}

/-- One child: visited, or skipped with nothing wanted in it. The last child's own
fence is not looked at. -/
theorem visit_or_skip {child : Nat} {edge : Option Bytes} {go : Bool}
    (meant : meaning child low high entries rests) (clipped : bounds.clip out = out)
    (isEdge : edge = none ∨ edge = high) (skips : go = false -> (∃ separator, low = some separator ∧
      bounds.belowUpper separator = false) ∨ bounds.aboveLower edge = false) :
    visitIf visit go child out = .ok (bounds.clip (out ++ bounds.wanted entries)) := by
  cases go with
  | true => exact visits child low high entries rests out meant clipped
  | false =>
    rw [wanted_of_skipped (fenced _ _ _ _ _ meant) ((skips rfl).imp_right fun isAbove => ?_),
      append_nil, clipped]
    · rfl
    · cases edge with
      | none => simp [WalkBounds.aboveLower] at isAbove
      | some edge => exact ⟨edge, by simpa [eq_comm] using isEdge, isAbove⟩

theorem walkCells_spec {bytes : Bytes} {first : Separator} {cells : List Separator}
    (spine : Spine meaning (some (keyBytes bytes first.key)) high first.child
      (cells.map (Separator.view bytes)) entries rests) (clipped : bounds.clip out = out) :
    walkCells bounds bytes visit (first :: cells) out =
      .ok (bounds.clip (out ++ bounds.wanted entries)) := by
  have skips : ∀ separator edge, (bounds.belowUpper separator && bounds.aboveLower edge) = false ->
      (∃ known, some separator = some known ∧ bounds.belowUpper known = false) ∨
        bounds.aboveLower edge = false := by
    intro separator edge isFalse
    rw [Bool.and_eq_false_iff] at isFalse
    exact isFalse.imp_left fun isBelow => ⟨separator, rfl, isBelow⟩
  induction cells generalizing first entries out rests with
  | nil =>
    rw [walkCells]
    by_cases isFull : bounds.full out.length = true
    · rw [if_pos isFull, bounds.clip_of_full _ clipped isFull]
    · rw [if_neg isFull, head?_nil, map_none]
      cases spine with
      | last meant =>
        rw [visit_or_skip visits fenced meant clipped (.inl rfl) (skips _ none)]
        rfl
  | cons next cells ih =>
    rw [walkCells]
    by_cases isFull : bounds.full out.length = true
    · rw [if_pos isFull, bounds.clip_of_full _ clipped isFull]
    · rw [if_neg isFull, head?_cons, map_some]
      cases spine with
      | cons parts meant others apart =>
        rw [visit_or_skip visits fenced meant clipped (.inr rfl) (skips _ _)]
        change walkCells bounds bytes visit (next :: cells) _ = _
        rw [ih others (bounds.clip_idem _), bounds.clip_clip, bounds.wanted_append, append_assoc]

end Spine

theorem walk_spec (wide : overflowHeaderSize < pageSize) {depth height id : Nat}
    (subtree : Subtree pageSize pages height id low high entries rests)
    (clipped : bounds.clip out = out) (deep : height < depth) :
    walk pageSize pages bounds depth id out =
      .ok (bounds.clip (out ++ bounds.wanted entries)) := by
  induction depth generalizing height id low high entries out rests with
  | zero => omega
  | succ depth ih =>
    rw [walk]
    by_cases valid : id = 0
    · subst valid
      obtain ⟨rfl, -⟩ := subtree.of_zero
      rw [if_pos (.inl rfl), bounds.wanted_nil, append_nil, clipped]
    by_cases isFull : bounds.full out.length = true
    · rw [if_pos (.inr isFull), bounds.clip_of_full _ clipped isFull]
    rw [if_neg (by simp [valid, isFull])]
    obtain ⟨less, below, rfl, rfl, outside, leaf | inner⟩ := subtree.of_ne valid
    · obtain ⟨bytes, cells, found, -, -, -, held, -⟩ := leaf.cells
      rw [found]
      exact walkEntries_spec wide held clipped
    · obtain ⟨shownLeftmost, shownCells, ⟨node, found, -, isView⟩, -, -, spine⟩ := inner
      cases node with
      | leaf bytes entries => simp [Node.view] at isView
      | internal bytes leftmost cells =>
        obtain ⟨rfl, rfl⟩ : leftmost = shownLeftmost ∧
            cells.map (Separator.view bytes) = shownCells := by simpa [Node.view] using isView
        rw [found]
        change (visitIf (walk pageSize pages bounds depth) _ leftmost out >>= _) = _
        have visits : ∀ child low high entries rests out,
            Subtree pageSize pages less child low high entries rests -> bounds.clip out = out ->
            walk pageSize pages bounds depth child out =
              .ok (bounds.clip (out ++ bounds.wanted entries)) :=
          fun _ _ _ _ _ _ subtree clipped => ih subtree clipped (by omega)
        have fenced : ∀ child low high entries rests,
            Subtree pageSize pages less child low high entries rests ->
            Fenced low high entries := fun _ _ _ _ _ subtree => subtree.fenced
        cases cells with
        | nil =>
          cases spine with
          | last meant =>
            rw [head?_nil, map_none, visit_or_skip visits fenced meant clipped (.inl rfl) .inr]
            rfl
        | cons next cells =>
          cases spine with
          | cons parts meant others apart =>
            rw [head?_cons, map_some, visit_or_skip visits fenced meant clipped (.inr rfl) .inr]
            change walkCells bounds bytes _ (next :: cells) _ = _
            rw [walkCells_spec visits fenced others (bounds.clip_idem _), bounds.clip_clip,
              bounds.wanted_append, append_assoc]

end Walk

end CowBTree

end InlaySql.Btree
