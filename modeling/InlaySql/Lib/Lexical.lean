import InlaySql.Lib.Bytes

/-!
# Keys compared byte by byte

A byte string lies *below* another when they agree up to a byte that is smaller in
the first: what follows that byte decides nothing. An encoding whose values are equal
or below one another keeps its order whatever keys it is embedded in.
-/

namespace InlaySql.Lib

open List

/-- The two strings differ, and the first difference is smaller on the left. -/
def Below (left right : Bytes) : Prop :=
  ∃ shared low high rest more,
    left = shared ++ low :: rest ∧ right = shared ++ high :: more ∧ low < high

namespace Below

variable {left right : Bytes}

theorem of_lt {low high : UInt8} (lt : low < high) (rest more : Bytes) :
    Below (low :: rest) (high :: more) :=
  ⟨[], low, high, rest, more, rfl, rfl, lt⟩

section

variable (below : Below left right)

include below

theorem append_left (start : Bytes) : Below (start ++ left) (start ++ right) := by
  obtain ⟨shared, low, high, rest, more, rfl, rfl, lt⟩ := below
  exact ⟨start ++ shared, low, high, rest, more, by simp, by simp, lt⟩

theorem cons (byte : UInt8) : Below (byte :: left) (byte :: right) :=
  below.append_left [byte]

theorem append_right (rest more : Bytes) : Below (left ++ rest) (right ++ more) := by
  obtain ⟨shared, low, high, tail, others, rfl, rfl, lt⟩ := below
  exact ⟨shared, low, high, tail ++ rest, others ++ more, by simp, by simp, lt⟩

end

theorem lt (below : Below left right) : left < right := by
  obtain ⟨shared, low, high, rest, more, rfl, rfl, lt⟩ := below
  induction shared with
  | nil => exact cons_lt_cons_iff.mpr (.inl lt)
  | cons byte shared ih => exact cons_lt_cons_iff.mpr (.inr ⟨rfl, ih⟩)

theorem not_isPrefix (below : Below left right) (rest : Bytes) :
    ¬ left <+: right ++ rest ∧ ¬ right <+: left ++ rest := by
  obtain ⟨shared, low, high, tail, more, rfl, rfl, lt⟩ := below
  have apart : low ≠ high := fun same => UInt8.lt_irrefl low (same ▸ lt)
  constructor
  · rintro ⟨others, same⟩
    simp only [append_assoc, cons_append, append_cancel_left_eq, List.cons.injEq] at same
    exact apart same.1
  · rintro ⟨others, same⟩
    simp only [append_assoc, cons_append, append_cancel_left_eq, List.cons.injEq] at same
    exact apart same.1.symm

end Below

theorem le_of_isPrefix {start key : Bytes} (within : start <+: key) : start ≤ key := by
  obtain ⟨rest, rfl⟩ := within
  rw [<- not_lt]
  induction start with
  | nil => exact not_lt_nil _
  | cons byte start ih =>
    rw [cons_append, cons_lt_cons_iff]
    rintro (less | ⟨-, less⟩)
    · exact absurd less (UInt8.lt_irrefl byte)
    · exact ih less

/-- What starts with a string, or lies below it, sorts before the string cut after one
of its bytes with that byte raised. -/
theorem lt_of_raised {front rest key : Bytes} {last : UInt8} (raised : last < last + 1)
    (within : front ++ last :: rest <+: key ∨ Below key (front ++ last :: rest)) :
    key < front ++ [last + 1] := by
  have starts : ∀ more, front ++ last :: more < front ++ [last + 1] := fun more =>
    Below.lt ⟨front, last, last + 1, more, [], rfl, rfl, raised⟩
  rcases within with ⟨more, rfl⟩ | ⟨shared, low, high, tail, more, rfl, same, lt⟩
  · simpa using starts (rest ++ more)
  · -- The strings part before, at or after the raised byte.
    rw [append_eq_append_iff] at same
    rcases same with ⟨middle, rfl, same⟩ | ⟨middle, rfl, same⟩
    · cases middle with
      | nil =>
        simp only [nil_append, List.cons.injEq] at same
        obtain ⟨rfl, -⟩ := same
        refine Below.lt ⟨front, low, last + 1, tail, [], by simp, rfl, ?_⟩
        exact UInt8.lt_trans lt raised
      | cons byte middle =>
        simp only [cons_append, List.cons.injEq] at same
        obtain ⟨rfl, -⟩ := same
        simpa using starts (middle ++ low :: tail)
    · cases middle with
      | nil =>
        simp only [nil_append, List.cons.injEq] at same
        obtain ⟨rfl, -⟩ := same
        exact Below.lt ⟨shared, low, high + 1, tail, [], rfl, by simp, UInt8.lt_trans lt raised⟩
      | cons byte middle =>
        simp only [cons_append, List.cons.injEq] at same
        obtain ⟨rfl, -⟩ := same
        exact Below.lt ⟨shared, low, high, tail, middle ++ [last + 1], rfl, by simp, lt⟩

theorem isPrefix_or_below {left right : Bytes} (le : left ≤ right) :
    left <+: right ∨ Below left right := by
  induction left generalizing right with
  | nil => exact .inl nil_prefix
  | cons byte left ih =>
    cases right with
    | nil => exact absurd (nil_lt_cons byte left) (not_lt.mpr le)
    | cons other right =>
      rcases lt_trichotomy byte other with lt | rfl | gt
      · exact .inr (Below.of_lt lt _ _)
      · have rest : left ≤ right := by
          rw [<- not_lt]
          intro less
          exact absurd (cons_lt_cons_iff.mpr (.inr ⟨rfl, less⟩)) (not_lt.mpr le)
        rcases ih rest with ⟨more, rfl⟩ | below
        · exact .inl ⟨more, rfl⟩
        · exact .inr (below.cons byte)
      · exact absurd (cons_lt_cons_iff.mpr (.inl gt)) (not_lt.mpr le)

theorem raised_le {front more : Bytes} {last high : UInt8} (lt : last < high) :
    front ++ [last + 1] ≤ front ++ high :: more := by
  have step : last + 1 ≤ high := by
    rw [UInt8.lt_iff_toNat_lt] at lt
    have bound := high.toNat_lt
    rw [UInt8.le_iff_toNat_le, UInt8.toNat_add]
    simp
    omega
  rcases eq_or_lt_of_le step with rfl | less
  · exact le_of_isPrefix ⟨more, by simp⟩
  · exact (Below.lt ⟨front, _, high, [], more, rfl, rfl, less⟩).le

/-- What sorts between a string and the string raised at the last byte that can be
raised starts with the string. -/
theorem isPrefix_of_raised {front rest key : Bytes} {last : UInt8}
    (greatest : ∀ byte ∈ rest, byte = 255) (from_le : front ++ last :: rest ≤ key)
    (lt_to : key < front ++ [last + 1]) : front ++ last :: rest <+: key := by
  rcases isPrefix_or_below from_le with within | ⟨shared, low, high, tail, more, same, rfl, lt⟩
  · exact within
  · exfalso
    rw [append_eq_append_iff] at same
    rcases same with ⟨middle, rfl, same⟩ | ⟨middle, rfl, same⟩
    · cases middle with
      | nil =>
        simp only [nil_append, List.cons.injEq] at same
        obtain ⟨rfl, -⟩ := same
        simp only [append_nil] at lt_to
        exact absurd lt_to (not_lt.mpr (raised_le lt))
      | cons byte middle =>
        simp only [cons_append, List.cons.injEq] at same
        obtain ⟨rfl, rfl⟩ := same
        have most : low = 255 := greatest low (by simp)
        subst most
        exact absurd lt (by have := high.toNat_lt; simp [UInt8.lt_iff_toNat_lt]; omega)
    · cases middle with
      | nil =>
        simp only [nil_append, List.cons.injEq] at same
        obtain ⟨rfl, -⟩ := same
        simp only [append_nil] at lt_to
        exact absurd lt_to (not_lt.mpr (raised_le lt))
      | cons byte middle =>
        simp only [cons_append, List.cons.injEq] at same
        obtain ⟨rfl, -⟩ := same
        refine absurd lt_to (not_lt.mpr (Below.lt ?_).le)
        exact ⟨shared, low, high, middle ++ [last + 1], more, by simp, rfl, lt⟩

theorem below_leBytes_reverse {width low high : Nat} (lt : low < high) (fits : high < 256 ^ width) :
    Below (leBytes width low).reverse (leBytes width high).reverse := by
  induction width generalizing low high with
  | zero => simp at fits; omega
  | succ width ih =>
    simp only [leBytes, reverse_cons]
    have small : high / 256 < 256 ^ width := by
      rw [Nat.div_lt_iff_lt_mul (by decide)]
      simpa [Nat.pow_succ] using fits
    rcases Nat.lt_or_ge (low / 256) (high / 256) with less | more
    · exact (ih less small).append_right _ _
    · have same : low / 256 = high / 256 := by omega
      rw [same]
      refine Below.append_left (Below.of_lt ?_ [] []) _
      rw [UInt8.lt_iff_toNat_lt, UInt8.toNat_ofNat', UInt8.toNat_ofNat']
      omega

end InlaySql.Lib
