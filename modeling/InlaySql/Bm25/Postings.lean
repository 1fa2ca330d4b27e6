import InlaySql.Bm25.Index
import InlaySql.Lib.Slots

/-!
# Postings in the order of ordinals

A term's postings ascend by document ordinal. A posting is put where the binary search says and
taken out where it finds it, which in a sorted list is placing it and leaving its document out.
-/

namespace InlaySql.Bm25.Bm25Index

open List Lib

variable {doc : Nat} {posting other : Posting} {postings : List Posting}

section

variable (sorted : postings.Pairwise (·.doc < ·.doc))

include sorted

theorem falls_of_sorted (doc : Nat) : postings.Pairwise fun left right =>
      decide (right.doc < doc) = true -> decide (left.doc < doc) = true := by
  refine sorted.imp fun {left right} isBefore passes => ?_
  exact decide_eq_true (isBefore.trans (of_decide_eq_true passes))

theorem dropWhile_sorted {found : Posting} {after : List Posting}
    (rest : postings.dropWhile (·.doc < doc) = found :: after) :
    doc ≤ found.doc ∧ ∀ other ∈ after, found.doc < other.doc := by
  have sortedRest : (found :: after).Pairwise (·.doc < ·.doc) :=
    rest ▸ sorted.sublist (dropWhile_sublist _)
  refine ⟨?_, fun other member => rel_of_pairwise_cons sortedRest member⟩
  have member : found ∈ postings.filter fun other => !decide (other.doc < doc) := by
    rw [<- Slots.dropWhile_eq_filter (falls_of_sorted sorted doc), rest]
    exact mem_cons_self
  simpa using (mem_filter.mp member).2

theorem removePosting_eq_filter : removePosting doc postings = postings.filter (·.doc ≠ doc) := by
  have whole : postings.takeWhile (·.doc < doc) ++ postings.dropWhile (·.doc < doc) = postings :=
    takeWhile_append_dropWhile
  have first : (postings.takeWhile (·.doc < doc)).filter (·.doc ≠ doc) =
      postings.takeWhile (·.doc < doc) := by
    rw [filter_eq_self]
    intro other member
    have isBefore := mem_takeWhile_imp member
    simp only [decide_eq_true_eq] at isBefore ⊢
    omega
  unfold removePosting
  cases rest : postings.dropWhile (·.doc < doc) with
  | nil =>
    rw [rest, append_nil] at whole
    rw [whole] at first
    exact first.symm
  | cons found after =>
    obtain ⟨least, later⟩ := dropWhile_sorted sorted rest
    have last : after.filter (·.doc ≠ doc) = after := by
      rw [filter_eq_self]
      intro other member
      have isLater := later other member
      simp only [decide_eq_true_eq]
      omega
    have parts : postings.filter (·.doc ≠ doc) =
        postings.takeWhile (·.doc < doc) ++ (found :: after).filter (·.doc ≠ doc) := by
      conv_lhs => rw [<- whole, filter_append, first, rest]
    rw [parts]
    by_cases same : found.doc = doc
    · rw [filter_cons_of_neg (by simpa using same), last]
      exact if_pos same
    · rw [filter_cons_of_pos (by simpa using same), last]
      rw [rest] at whole
      exact (if_neg same).trans whole.symm

theorem putPosting_eq_place : putPosting posting postings =
      Slots.place (fun left right => decide (left.doc < right.doc)) posting postings := by
  have first := Slots.takeWhile_eq_filter (falls_of_sorted sorted posting.doc)
  have later : postings.filter (fun other => decide (posting.doc < other.doc)) =
      (postings.dropWhile (·.doc < posting.doc)).filter fun other =>
        decide (posting.doc < other.doc) := by
    rw [Slots.dropWhile_eq_filter (falls_of_sorted sorted posting.doc), filter_filter]
    refine filter_congr fun other _ => ?_
    by_cases isLater : posting.doc < other.doc
    · simp [isLater, Nat.le_of_lt isLater]
    · simp [isLater]
  unfold putPosting Slots.place
  rw [later]
  cases rest : postings.dropWhile (·.doc < posting.doc) with
  | nil =>
    have whole : postings.takeWhile (·.doc < posting.doc) ++
        postings.dropWhile (·.doc < posting.doc) = postings := takeWhile_append_dropWhile
    rw [rest, append_nil] at whole
    simp only [filter_nil]
    rw [<- first, whole]
  | cons found after =>
    obtain ⟨least, above⟩ := dropWhile_sorted sorted rest
    have last : after.filter (fun other => decide (posting.doc < other.doc)) = after := by
      rw [filter_eq_self]
      intro other member
      have isLater := above other member
      simp only [decide_eq_true_eq]
      omega
    by_cases same : found.doc = posting.doc
    · rw [filter_cons_of_neg (by simp; omega), last, <- first]
      exact if_pos same
    · rw [filter_cons_of_pos (by simp; omega), last, <- first]
      exact if_neg same

theorem mem_putPosting : other ∈ putPosting posting postings ↔
      other = posting ∨ other ∈ postings ∧ other.doc ≠ posting.doc := by
  rw [putPosting_eq_place sorted, Slots.mem_place]
  simp only [decide_eq_true_eq]
  rw [ne_iff_lt_or_gt]

theorem sorted_putPosting : (putPosting posting postings).Pairwise (·.doc < ·.doc) := by
  have trans (left middle right : Posting) (isBefore : decide (left.doc < middle.doc) = true)
      (isAfter : decide (middle.doc < right.doc) = true) : decide (left.doc < right.doc) = true :=
    decide_eq_true ((of_decide_eq_true isBefore).trans (of_decide_eq_true isAfter))
  have isOrdered : postings.Pairwise fun left right => decide (left.doc < right.doc) = true :=
    sorted.imp fun isBefore => decide_eq_true isBefore
  rw [putPosting_eq_place sorted]
  exact (Slots.pairwise_place trans isOrdered).imp of_decide_eq_true

theorem mem_removePosting :
    other ∈ removePosting doc postings ↔ other ∈ postings ∧ other.doc ≠ doc := by
  rw [removePosting_eq_filter sorted, mem_filter, decide_eq_true_eq]

theorem sorted_removePosting : (removePosting doc postings).Pairwise (·.doc < ·.doc) := by
  rw [removePosting_eq_filter sorted]
  exact sorted.filter _

end

end InlaySql.Bm25.Bm25Index
