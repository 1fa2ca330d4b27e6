import InlaySql.Btree.Page

/-!
# Key comparison and search inside a node

`key_cmp` compares keys a word at a time and answers as lexicographic comparison
does. On strictly sorted keys the two binary searches then find the only index
they can: the key's own, its insertion point, or the number of separators at most
the key.
-/

namespace InlaySql.Btree

open List Lib

/-! ## Lexicographic comparison by pieces -/

section Compare

theorem cmp_congr {α β : Type} [LT α] [DecidableLT α] [LT β] [DecidableLT β]
    {x y : α} {x' y' : β} (below : x < y ↔ x' < y') (above : y < x ↔ y' < x') :
    cmp x y = cmp x' y' := by
  simp [cmp, cmpUsing, below, above]

variable {α : Type} [LinearOrder α]

theorem append_lt_append_left (front a b : List α) : front ++ a < front ++ b ↔ a < b := by
  induction front with
  | nil => rfl
  | cons head front ih => simp [ih]

theorem append_lt_append_of_ne {x y : List α} (same : x.length = y.length) (distinct : x ≠ y)
    (a b : List α) : x ++ a < y ++ b ↔ x < y := by
  induction x generalizing y with
  | nil =>
    have empty : y = [] := by simpa using same.symm
    exact absurd empty.symm distinct
  | cons head x ih =>
    cases y with
    | nil => simp at same
    | cons other y =>
      simp only [cons_append, cons_lt_cons_iff]
      constructor
      · rintro (less | ⟨rfl, rest⟩)
        · exact .inl less
        · exact .inr ⟨rfl, (ih (by simpa using same) (by simpa using distinct)).mp rest⟩
      · rintro (less | ⟨rfl, rest⟩)
        · exact .inl less
        · exact .inr ⟨rfl, (ih (by simpa using same) (by simpa using distinct)).mpr rest⟩

end Compare

theorem ofBe_cons (byte : UInt8) (rest : Bytes) :
    ofBe (byte :: rest) = byte.toNat * 256 ^ rest.length + ofBe rest := by
  have general : ∀ (rest : Bytes) (start : Nat),
      rest.foldl (fun value byte => 256 * value + byte.toNat) start =
        start * 256 ^ rest.length + ofBe rest := by
    intro rest
    induction rest with
    | nil => simp [ofBe]
    | cons next rest ih =>
      intro start
      have unfolded : ofBe (next :: rest) = next.toNat * 256 ^ rest.length + ofBe rest := by
        simpa [ofBe] using ih next.toNat
      rw [foldl_cons, ih, unfolded, length_cons]
      ring
  simpa [ofBe] using general rest byte.toNat

theorem ofBe_lt (bytes : Bytes) : ofBe bytes < 256 ^ bytes.length := by
  induction bytes with
  | nil => simp [ofBe]
  | cons byte rest ih =>
    have small : byte.toNat + 1 ≤ 256 := byte.toNat_lt
    rw [ofBe_cons, length_cons, Nat.pow_succ]
    nlinarith [Nat.mul_le_mul_right (256 ^ rest.length) small]

variable {a b : Bytes} {keys : Nat -> Bytes}

theorem ofBe_lt_iff (same : a.length = b.length) : ofBe a < ofBe b ↔ a < b := by
  induction a generalizing b with
  | nil =>
    obtain rfl : b = [] := by simpa using same.symm
    simp [ofBe]
  | cons head a ih =>
    cases b with
    | nil => simp at same
    | cons other b =>
      have length : a.length = b.length := by simpa using same
      have boundA := ofBe_lt a
      have boundB := ofBe_lt b
      rw [ofBe_cons, ofBe_cons, cons_lt_cons_iff, <- ih length, length]
      rw [length] at boundA
      rw [UInt8.lt_iff_toNat_lt, <- UInt8.toNat_inj]
      rcases lt_trichotomy head.toNat other.toNat with less | equal | greater
      · have := Nat.mul_le_mul_right (256 ^ b.length) less
        constructor
        · intro; exact .inl less
        · intro; nlinarith
      · simp [equal]
      · have := Nat.mul_le_mul_right (256 ^ b.length) greater
        constructor
        · intro; nlinarith
        · rintro (less | ⟨equal, -⟩) <;> omega

/-- What a partial comparison of the first `n` bytes has established. -/
def Decides (a b : Bytes) (n : Nat) : Option Ordering -> Prop
  | some order => order = cmp a b
  | none => a.take n = b.take n

section Words

variable {a b : Bytes} {n : Nat}

theorem window_decides {start width : Nat} (common : a.take start = b.take start)
    (inA : start + width ≤ a.length) (inB : start + width ≤ b.length) :
    (slice a start width = slice b start width -> a.take (start + width) = b.take (start + width)) ∧
      (slice a start width ≠ slice b start width ->
        cmp (slice a start width) (slice b start width) = cmp a b) := by
  have parts : ∀ s : Bytes, s = s.take start ++ (slice s start width ++ s.drop (start + width)) := by
    intro s
    rw [slice, <- drop_drop, take_append_drop, take_append_drop]
  have grown : ∀ s : Bytes, s.take (start + width) = s.take start ++ slice s start width := by
    intro s
    rw [take_add, slice]
  constructor
  · intro same
    rw [grown, grown, common, same]
  · intro distinct
    have lengths : (slice a start width).length = (slice b start width).length := by
      rw [length_slice inA, length_slice inB]
    apply cmp_congr
    · conv_rhs => rw [parts a, parts b, common]
      rw [append_lt_append_left, append_lt_append_of_ne lengths distinct]
    · conv_rhs => rw [parts a, parts b, common]
      rw [append_lt_append_left, append_lt_append_of_ne lengths.symm distinct.symm]

theorem word_decides {start : Nat} (common : a.take start = b.take start)
    (inA : start + 8 ≤ a.length) (inB : start + 8 ≤ b.length) :
    (wordAt a start = wordAt b start -> a.take (start + 8) = b.take (start + 8)) ∧
      (wordAt a start ≠ wordAt b start -> cmp (wordAt a start) (wordAt b start) = cmp a b) := by
  have window := window_decides common inA inB
  have lengths : (slice a start 8).length = (slice b start 8).length := by
    rw [length_slice inA, length_slice inB]
  have words : cmp (wordAt a start) (wordAt b start) = cmp (slice a start 8) (slice b start 8) :=
    cmp_congr (ofBe_lt_iff lengths) (ofBe_lt_iff lengths.symm)
  constructor
  · intro same
    have less := ofBe_lt_iff lengths
    have more := ofBe_lt_iff lengths.symm
    rw [<- wordAt, <- wordAt, same] at less more
    exact window.1 (le_antisymm (not_lt.mp (by simp [<- more])) (not_lt.mp (by simp [<- less])))
  · intro distinct
    rw [words]
    refine window.2 fun same => distinct ?_
    rw [wordAt, wordAt, same]

theorem byteCmp_decides (turns start : Nat) (total : start + turns = n)
    (inA : n ≤ a.length) (inB : n ≤ b.length) (common : a.take start = b.take start) :
    Decides a b n (byteCmp a b turns start) := by
  induction turns generalizing start with
  | zero =>
    obtain rfl : start = n := by simpa using total
    exact common
  | succ turns ih =>
    have window := window_decides common (show start + 1 ≤ a.length by omega)
      (show start + 1 ≤ b.length by omega)
    have single : ∀ s : Bytes, start < s.length -> slice s start 1 = [s.getD start 0] := by
      intro s inside
      rw [slice, drop_eq_getElem_cons inside, take_succ_cons, take_zero,
        getD_eq_getElem?_getD, getElem?_eq_getElem inside, Option.getD_some]
    rw [single a (by omega), single b (by omega)] at window
    unfold byteCmp
    split
    · rename_i distinct
      have decided := window.2 (by simpa using distinct)
      refine Eq.trans ?_ decided
      exact cmp_congr (by simp [cons_lt_cons_iff]) (by simp [cons_lt_cons_iff])
    · rename_i same
      exact ih (start + 1) (by omega) (window.1 (by simpa using same))

theorem wordLoop_decides (turns start : Nat) (room : start + 8 * turns ≤ n)
    (tail : n < start + 8 * turns + 8) (inA : n ≤ a.length) (inB : n ≤ b.length)
    (common : a.take start = b.take start) :
    Decides a b n (wordLoop a b n turns start) := by
  induction turns generalizing start with
  | zero =>
    unfold wordLoop
    split
    · split
      · -- The tail word overlaps bytes already known equal.
        have shorter : a.take (n - 8) = b.take (n - 8) := by
          have cut := congrArg (List.take (n - 8)) common
          rwa [take_take, take_take, Nat.min_eq_left (by omega)] at cut
        have word := word_decides shorter (by omega) (by omega)
        rw [show n - 8 + 8 = n by omega] at word
        split
        · exact word.2 ‹_›
        · rename_i same
          exact word.1 (not_not.mp same)
      · exact byteCmp_decides (n - start) start (by omega) inA inB common
    · obtain rfl : start = n := by omega
      exact common
  | succ turns ih =>
    have word := word_decides common (by omega) (by omega)
    unfold wordLoop
    split
    · exact word.2 ‹_›
    · rename_i same
      exact ih (start + 8) (by omega) (by omega) (word.1 (not_not.mp same))

end Words

theorem cmp_of_take_eq (common : a.take (min a.length b.length) = b.take (min a.length b.length)) :
    cmp a.length b.length = cmp a b := by
  rcases Nat.le_total a.length b.length with shorter | shorter
  · rw [Nat.min_eq_left shorter, take_length] at common
    obtain ⟨rest, rfl⟩ : ∃ rest, b = a ++ rest := ⟨b.drop a.length, by
      conv_lhs => rw [<- take_append_drop a.length b, <- common]⟩
    have self := append_lt_append_left a [] rest
    have other := append_lt_append_left a rest []
    rw [append_nil] at self other
    apply cmp_congr
    · rw [self]
      cases rest <;> simp
    · rw [other]
      cases rest <;> simp
  · rw [Nat.min_eq_right shorter, take_length] at common
    obtain ⟨rest, rfl⟩ : ∃ rest, a = b ++ rest := ⟨a.drop b.length, by
      conv_lhs => rw [<- take_append_drop b.length a, common]⟩
    have self := append_lt_append_left b [] rest
    have other := append_lt_append_left b rest []
    rw [append_nil] at self other
    apply cmp_congr
    · rw [other]
      cases rest <;> simp
    · rw [self]
      cases rest <;> simp

theorem keyCmp_eq_cmp (a b : Bytes) : keyCmp a b = cmp a b := by
  unfold keyCmp
  simp only
  split
  · rfl
  · have decided : Decides a b (min a.length b.length) (wordCmp a b (min a.length b.length)) :=
      wordLoop_decides (min a.length b.length / 8) 0 (by omega) (by omega) (Nat.min_le_left _ _) (Nat.min_le_right _ _)
        (by simp)
    cases outcome : wordCmp a b (min a.length b.length) with
    | some order =>
      rw [outcome] at decided
      exact decided
    | none =>
      rw [outcome] at decided
      exact cmp_of_take_eq decided

@[simp] theorem keyCmp_eq_lt : keyCmp a b = .lt ↔ a < b := by
  rw [keyCmp_eq_cmp]
  simp only [cmp, cmpUsing]
  split
  · simp_all
  · split <;> simp_all

@[simp] theorem keyCmp_eq_gt : keyCmp a b = .gt ↔ b < a := by
  rw [keyCmp_eq_cmp]
  simp only [cmp, cmpUsing]
  split
  · rename_i less
    simpa using less.le
  · split <;> simp_all

@[simp] theorem keyCmp_eq_eq : keyCmp a b = .eq ↔ a = b := by
  constructor
  · intro same
    refine le_antisymm (not_lt.mp fun more => ?_) (not_lt.mp fun less => ?_)
    · simp [keyCmp_eq_gt.mpr more] at same
    · simp [keyCmp_eq_lt.mpr less] at same
  · rintro rfl
    cases outcome : keyCmp a a with
    | lt => exact absurd (keyCmp_eq_lt.mp outcome) (lt_irrefl a)
    | gt => exact absurd (keyCmp_eq_gt.mp outcome) (lt_irrefl a)
    | eq => rfl

@[simp] theorem keyCmp_isLE : (keyCmp a b).isLE = true ↔ a ≤ b := by
  cases outcome : keyCmp a b with
  | lt => simpa using (keyCmp_eq_lt.mp outcome).le
  | eq => simpa using (keyCmp_eq_eq.mp outcome).le
  | gt => simpa using keyCmp_eq_gt.mp outcome

@[simp] theorem keyCmp_isLT : (keyCmp a b).isLT = true ↔ a < b := by
  rw [<- keyCmp_eq_lt]
  cases keyCmp a b <;> simp

@[simp] theorem keyCmp_isGE : (keyCmp a b).isGE = true ↔ b ≤ a := by
  rw [<- not_lt, <- keyCmp_eq_lt]
  cases keyCmp a b <;> simp

/-! ## Binary search on strictly sorted keys -/

/-- Keys below `count` are strictly increasing. -/
def Increasing (keys : Nat -> Bytes) (count : Nat) : Prop :=
  ∀ i j, i < j -> j < count -> keys i < keys j

/-- Where a search for `key` must end. -/
def Found (keys : Nat -> Bytes) (count : Nat) (key : Bytes) : Except Nat Nat -> Prop
  | .ok i => i < count ∧ keys i = key
  | .error i => i ≤ count ∧ (∀ j, j < i -> keys j < key) ∧ ∀ j, i ≤ j -> j < count -> key < keys j

section

variable {count : Nat} {key : Bytes} (sorted : Increasing keys count) (turns low high : Nat)
    (enough : high - low ≤ turns) (ordered : low ≤ high) (inside : high ≤ count)

include sorted turns low high enough ordered inside

theorem searchLoop_found (below : ∀ j, j < low -> keys j < key)
    (above : ∀ j, high ≤ j -> j < count -> key < keys j) :
    Found keys count key (searchLoop keys key turns low high) := by
  induction turns generalizing low high with
  | zero =>
    obtain rfl : low = high := by omega
    exact ⟨inside, below, above⟩
  | succ turns ih =>
    unfold searchLoop
    split
    · rename_i nonempty
      have split : low + (high - low) / 2 < high := by omega
      simp only
      cases outcome : keyCmp (keys (low + (high - low) / 2)) key with
      | eq => exact ⟨split.trans_le inside, keyCmp_eq_eq.mp outcome⟩
      | lt =>
        refine ih _ _ (by omega) (by omega) inside ?_ above
        intro j bound
        rcases Nat.lt_or_eq_of_le (Nat.le_of_lt_succ bound) with less | rfl
        · exact (sorted _ _ less (by omega)).trans (keyCmp_eq_lt.mp outcome)
        · exact keyCmp_eq_lt.mp outcome
      | gt =>
        refine ih _ _ (by omega) (by omega) (by omega) below ?_
        intro j bound within
        rcases Nat.lt_or_eq_of_le bound with less | rfl
        · exact (keyCmp_eq_gt.mp outcome).trans (sorted _ _ less within)
        · exact keyCmp_eq_gt.mp outcome
    · obtain rfl : low = high := by omega
      exact ⟨inside, below, above⟩

theorem routeLoop_splits (below : ∀ j, j < low -> keys j ≤ key)
    (above : ∀ j, high ≤ j -> j < count -> key < keys j) :
    routeLoop keys key turns low high ≤ count ∧
      (∀ j, j < routeLoop keys key turns low high -> keys j ≤ key) ∧
      ∀ j, routeLoop keys key turns low high ≤ j -> j < count -> key < keys j := by
  induction turns generalizing low high with
  | zero =>
    obtain rfl : low = high := by omega
    exact ⟨inside, below, above⟩
  | succ turns ih =>
    unfold routeLoop
    split
    · rename_i nonempty
      have split : low + (high - low) / 2 < high := by omega
      simp only [keyCmp_isLE]
      by_cases small : keys (low + (high - low) / 2) ≤ key
      · rw [if_pos small]
        refine ih _ _ (by omega) (by omega) inside ?_ above
        intro j bound
        rcases Nat.lt_or_eq_of_le (Nat.le_of_lt_succ bound) with less | rfl
        · exact (sorted _ _ less (by omega)).le.trans small
        · exact small
      · rw [if_neg small]
        refine ih _ _ (by omega) (by omega) (by omega) below ?_
        intro j bound within
        rcases Nat.lt_or_eq_of_le bound with less | rfl
        · exact (not_le.mp small).trans (sorted _ _ less within)
        · exact not_le.mp small
    · obtain rfl : low = high := by omega
      exact ⟨inside, below, above⟩

end

/-! ## The searches of a node -/

/-- The keys of a leaf's entries. -/
def entryKeys (source : Bytes) (entries : List Entry) : List Bytes :=
  entries.map fun entry => keyBytes source entry.key

/-- The keys of an internal node's separators. -/
def separatorKeys (source : Bytes) (cells : List Separator) : List Bytes :=
  cells.map fun cell => keyBytes source cell.key

section Node

variable {source key : Bytes} {keys : List Bytes}

theorem length_filter_of_split {pass : Bytes -> Bool} {cut : Nat} (inside : cut ≤ keys.length)
    (before : ∀ j, j < cut -> pass ((keys[j]?).getD []) = true)
    (after : ∀ j, cut ≤ j -> j < keys.length -> pass ((keys[j]?).getD []) = false) :
    (keys.filter pass).length = cut := by
  have front : (keys.take cut).filter pass = keys.take cut := by
    rw [filter_eq_self]
    intro item member
    obtain ⟨j, below, rfl⟩ := getElem_of_mem member
    rw [length_take] at below
    have holds := before j (by omega)
    rw [getElem?_eq_getElem (by omega)] at holds
    simpa using holds
  have back : (keys.drop cut).filter pass = [] := by
    rw [filter_eq_nil_iff]
    intro item member
    obtain ⟨j, below, rfl⟩ := getElem_of_mem member
    rw [length_drop] at below
    have fails := after (cut + j) (by omega) (by omega)
    rw [getElem?_eq_getElem (by omega)] at fails
    simpa using fails
  rw [<- take_append_drop cut keys, filter_append, front, back, append_nil, length_take]
  exact Nat.min_eq_left inside

theorem increasing_of_sorted (sorted : keys.Pairwise (· < ·)) :
    Increasing (fun index => (keys[index]?).getD []) keys.length := by
  intro i j less bound
  have pair := pairwise_iff_getElem.mp sorted i j (by omega) bound less
  simpa [getElem?_eq_getElem, bound, less.trans bound] using pair

theorem entryKey_eq (source : Bytes) (entries : List Entry) :
    entryKey source entries = fun index => ((entryKeys source entries)[index]?).getD [] := by
  funext index
  rw [entryKey, entryKeys, getElem?_map]

theorem separatorKey_eq (source : Bytes) (cells : List Separator) :
    separatorKey source cells = fun index => ((separatorKeys source cells)[index]?).getD [] := by
  funext index
  rw [separatorKey, separatorKeys, getElem?_map]

theorem Found.tells (sorted : keys.Pairwise (· < ·)) {outcome : Except Nat Nat}
    (found : Found (fun index => (keys[index]?).getD []) keys.length key outcome) :
    (∀ i, outcome = .ok i ↔ keys[i]? = some key) ∧
      ∀ i, outcome = .error i ↔ key ∉ keys ∧ i = (keys.filter (· < key)).length := by
  have present (i : Nat) (isKey : keys[i]? = some key) : i < keys.length ∧ (keys[i]?).getD [] = key := by
    rw [isKey]
    exact ⟨(List.getElem?_eq_some_iff.mp isKey).1, rfl⟩
  cases outcome with
  | ok place =>
    obtain ⟨inside, isKey⟩ := found
    have isPlace : keys[place]? = some key := by
      simp only [getElem?_eq_getElem inside, Option.getD_some] at isKey
      rw [getElem?_eq_getElem inside, isKey]
    constructor
    · intro i
      rw [Except.ok.injEq]
      constructor
      · rintro rfl
        exact isPlace
      · intro isOther
        exact (getElem?_inj inside (sorted.imp ne_of_lt)).mp (isPlace.trans isOther.symm)
    · intro i
      constructor
      · intro ends
        cases ends
      · rintro ⟨absent, -⟩
        exact absurd (mem_of_getElem? isPlace) absent
  | error place =>
    obtain ⟨inside, before, after⟩ := found
    have absent (i : Nat) : keys[i]? ≠ some key := by
      intro isKey
      obtain ⟨below, isKey⟩ := present i isKey
      rcases Nat.lt_or_ge i place with early | late
      · exact lt_irrefl key ((isKey ▸ before i early : key < key))
      · exact lt_irrefl key ((isKey ▸ after i late below : key < key))
    have count : (keys.filter (· < key)).length = place :=
      length_filter_of_split inside (fun j early => decide_eq_true (before j early))
        fun j late below => decide_eq_false (not_lt.mpr (after j late below).le)
    constructor
    · intro i
      constructor
      · intro ends
        cases ends
      · exact fun isKey => absurd isKey (absent i)
    · intro i
      rw [Except.error.injEq, count]
      constructor
      · rintro rfl
        refine ⟨fun member => ?_, rfl⟩
        obtain ⟨j, below, isKey⟩ := getElem_of_mem member
        exact absent j (List.getElem?_eq_some_iff.mpr ⟨below, isKey⟩)
      · exact fun ⟨_, same⟩ => same.symm

end Node

/-- Keys compare byte by byte, a search finds a key or its insertion point, and routing counts the
separators at most the key. -/
theorem keys_compare_search_route : (∀ a b : Bytes, keyCmp a b = cmp a b) ∧ ∀ source key : Bytes,
      (∀ entries : List Entry, (entryKeys source entries).Pairwise (· < ·) ->
        (∀ i, searchEntries source entries key = .ok i ↔
          (entryKeys source entries)[i]? = some key) ∧
        ∀ i, searchEntries source entries key = .error i ↔ key ∉ entryKeys source entries ∧
          i = ((entryKeys source entries).filter (· < key)).length) ∧
      ∀ cells : List Separator, (separatorKeys source cells).Pairwise (· < ·) ->
        routeSeparators source cells key =
          ((separatorKeys source cells).filter (· ≤ key)).length := by
  refine ⟨keyCmp_eq_cmp, fun source key => ⟨fun entries sorted => ?_, fun cells sorted => ?_⟩⟩
  · have length : (entryKeys source entries).length = entries.length := by simp [entryKeys]
    have increasing := increasing_of_sorted sorted
    refine Found.tells sorted ?_
    rw [searchEntries, entryKey_eq, <- length]
    exact searchLoop_found increasing _ 0 _ (by omega) (by omega) le_rfl (by simp) (by omega)
  · have length : (separatorKeys source cells).length = cells.length := by simp [separatorKeys]
    have increasing := increasing_of_sorted sorted
    rw [routeSeparators, separatorKey_eq, <- length]
    obtain ⟨inside, before, after⟩ := routeLoop_splits increasing
      (separatorKeys source cells).length 0 (separatorKeys source cells).length (by omega)
      (by omega) le_rfl (fun j early => absurd early (Nat.not_lt_zero j))
      fun j late below => absurd below (Nat.not_lt.mpr late)
    refine (length_filter_of_split inside (fun j early => decide_eq_true (before j early)) ?_).symm
    exact fun j late below => decide_eq_false (not_le.mpr (after j late below))

/-- Two sorted keys, probed with the second. -/
theorem keys_compare_search_route_second :
    searchEntries [] [⟨.owned [1], .owned []⟩, ⟨.owned [1, 0], .owned []⟩] [1, 0] = .ok 1 ∧
      routeSeparators [] [⟨.owned [1], 7⟩, ⟨.owned [1, 0], 8⟩] [1, 0] = 2 := by
  obtain ⟨searches, routes⟩ := keys_compare_search_route.2 [] [1, 0]
  refine ⟨((searches _ ?_).1 1).mpr rfl, (routes _ ?_).trans ?_⟩
  all_goals decide

end InlaySql.Btree
