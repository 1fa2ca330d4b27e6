import Mathlib

/-!
# Places leased to keys

Keys are given places below a size. A place that is given back goes on a free list and is
given out again before the size grows. Every place is free or leased, to one key only.
-/

namespace InlaySql.Lib

open List Function

variable {κ : Type*}

structure Leased (register : κ -> Option Nat) (free : List Nat) (size : Nat) : Prop where
  lt : ∀ key place, register key = some place -> place < size
  unique : ∀ key other place, register key = some place → register other = some place → key = other
  nodup : free.Nodup
  free_lt : ∀ place ∈ free, place < size
  apart : ∀ key place, register key = some place -> place ∉ free
  covered : ∀ place < size, place ∈ free ∨ ∃ key, register key = some place

namespace Leased

variable {register : κ -> Option Nat} {free rest : List Nat} {size place : Nat} {key : κ}

theorem empty : Leased (fun _ : κ => none) [] 0 where
  lt := by simp
  unique := by simp
  nodup := nodup_nil
  free_lt := by simp
  apart := by simp
  covered := by simp

theorem size_le (leased : Leased register [] size) (keys : Finset κ)
    (inside : ∀ key, (register key).isSome -> key ∈ keys) : size ≤ keys.card := by
  have onto : Set.SurjOn (fun key => (register key).getD 0) keys (Finset.range size) := by
    intro place isPlace
    rcases leased.covered place (by simpa using isPlace) with isFree | ⟨key, held⟩
    · cases isFree
    · exact ⟨key, inside key (by rw [held]; rfl), by simp [held]⟩
  simpa using Finset.card_le_card_of_surjOn _ onto

variable [DecidableEq κ]

theorem update_eq_some {other : κ} {found : Nat}
    (isFound : update register key (some place) other = some found) :
    other = key ∧ found = place ∨ other ≠ key ∧ register other = some found := by
  by_cases same : other = key
  · subst same
    rw [update_self] at isFound
    exact .inl ⟨rfl, (Option.some.inj isFound).symm⟩
  · rw [update_of_ne same] at isFound
    exact .inr ⟨same, isFound⟩

theorem assign (leased : Leased register free size) {freeNext : List Nat} {sizeNext : Nat}
    (absent : register key = none) (unheld : ∀ other, register other ≠ some place) (inside : place < sizeNext)
    (grows : size ≤ sizeNext) (nodup : freeNext.Nodup)
    (isFree : ∀ other, other ∈ freeNext ↔ other ∈ free ∧ other ≠ place)
    (bounded : ∀ other < sizeNext, other < size ∨ other = place) :
    Leased (update register key (some place)) freeNext sizeNext where
  lt := by
    intro other found isFound
    rcases update_eq_some isFound with ⟨-, rfl⟩ | ⟨-, before⟩
    · exact inside
    · exact (leased.lt other found before).trans_le grows
  unique := by
    intro one other found isOne isOther
    rcases update_eq_some isOne with ⟨rfl, rfl⟩ | ⟨_, oneBefore⟩
    · rcases update_eq_some isOther with ⟨rfl, -⟩ | ⟨_, otherBefore⟩
      · rfl
      · exact absurd otherBefore (unheld other)
    · rcases update_eq_some isOther with ⟨rfl, rfl⟩ | ⟨_, otherBefore⟩
      · exact absurd oneBefore (unheld one)
      · exact leased.unique one other found oneBefore otherBefore
  nodup := nodup
  free_lt := fun other member => (leased.free_lt other ((isFree other).mp member).1).trans_le grows
  apart := by
    intro other found isFound member
    obtain ⟨wasFree, differs⟩ := (isFree found).mp member
    rcases update_eq_some isFound with ⟨-, rfl⟩ | ⟨-, before⟩
    · exact differs rfl
    · exact leased.apart other found before wasFree
  covered := by
    intro other below
    by_cases same : other = place
    · exact .inr ⟨key, by rw [update_self, same]⟩
    · rcases leased.covered other ((bounded other below).resolve_right same) with
        wasFree | ⟨holder, held⟩
      · exact .inl ((isFree other).mpr ⟨wasFree, same⟩)
      · by_cases isKey : holder = key
        · rw [isKey, absent] at held
          cases held
        · exact .inr ⟨holder, by rw [update_of_ne isKey, held]⟩

theorem reuse (leased : Leased register (place :: rest) size) (absent : register key = none) :
    Leased (update register key (some place)) rest size := by
  obtain ⟨fresh, distinct⟩ := nodup_cons.mp leased.nodup
  refine leased.assign absent (fun other held => ?_)
    (leased.free_lt place mem_cons_self) (Nat.le_refl _) distinct (fun other => ?_)
    fun other below => .inl below
  · exact leased.apart other place held mem_cons_self
  · rw [mem_cons]
    constructor
    · intro member
      exact ⟨.inr member, fun same => fresh (same ▸ member)⟩
    · rintro ⟨same | member, differs⟩
      · exact absurd same differs
      · exact member

theorem grow (leased : Leased register free size) (absent : register key = none) :
    Leased (update register key (some size)) free (size + 1) := by
  refine leased.assign absent (fun other held => Nat.lt_irrefl _ (leased.lt other size held))
    (Nat.lt_succ_self size) (Nat.le_succ size) leased.nodup (fun other => ?_) fun other below => ?_
  · constructor
    · intro member
      exact ⟨member, Nat.ne_of_lt (leased.free_lt other member)⟩
    · exact And.left
  · omega

theorem release (leased : Leased register free size) (held : register key = some place) :
    Leased (update register key none) (place :: free) size where
  lt := by
    intro other found isFound
    by_cases same : other = key
    · simp [same] at isFound
    · rw [update_of_ne same] at isFound
      exact leased.lt other found isFound
  unique := by
    intro one other found isOne isOther
    by_cases oneKey : one = key
    · simp [oneKey] at isOne
    by_cases otherKey : other = key
    · simp [otherKey] at isOther
    rw [update_of_ne oneKey] at isOne
    rw [update_of_ne otherKey] at isOther
    exact leased.unique one other found isOne isOther
  nodup := nodup_cons.mpr ⟨leased.apart key place held, leased.nodup⟩
  free_lt := by
    intro other member
    rcases mem_cons.mp member with rfl | before
    · exact leased.lt key other held
    · exact leased.free_lt other before
  apart := by
    intro other found isFound member
    by_cases same : other = key
    · simp [same] at isFound
    · rw [update_of_ne same] at isFound
      rcases mem_cons.mp member with rfl | before
      · exact same (leased.unique other key found isFound held)
      · exact leased.apart other found isFound before
  covered := by
    intro other below
    by_cases same : other = place
    · exact .inl (same ▸ mem_cons_self)
    · rcases leased.covered other below with wasFree | ⟨holder, isHolder⟩
      · exact .inl (mem_cons_of_mem _ wasFree)
      · refine .inr ⟨holder, ?_⟩
        have differs : holder ≠ key := by
          rintro rfl
          exact same (Option.some.inj (isHolder.symm.trans held))
        rw [update_of_ne differs, isHolder]

end Leased

end InlaySql.Lib
