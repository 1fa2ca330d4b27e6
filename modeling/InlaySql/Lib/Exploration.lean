import Mathlib

/-!
# Exploring a graph

An exploration has seen some vertices and still has to expand some of those it has seen. A
vertex is expanded by seeing all it links to. When none is left to expand, exactly what can be
reached from the start has been seen, in whatever order the vertices were taken.
-/

namespace InlaySql.Lib

open Relation

variable {α : Type*} {links : α -> α -> Prop} {start vertex : α} {seen pending : α -> Prop}

/-- What is seen can be reached, and what is seen and not pending has been expanded. -/
structure Visited (links : α -> α -> Prop) (start : α) (seen pending : α -> Prop) : Prop where
  begun : seen start
  reached : ∀ vertex, seen vertex -> ReflTransGen links start vertex
  expanded : ∀ vertex, seen vertex -> pending vertex ∨ ∀ other, links vertex other -> seen other

namespace Visited

theorem begin (links : α → α → Prop) (start : α) : Visited links start (· = start) (· = start) where
  begun := rfl
  reached := by
    rintro vertex rfl
    exact .refl
  expanded := fun _ same => .inl same

section

variable (visited : Visited links start seen pending)

include visited

/-- A pending vertex is expanded: what it links to is seen, and pending if it was not seen
before. -/
theorem expand (isPending : seen vertex) {seenNext pendingNext : α -> Prop}
    (sees : ∀ other, seenNext other ↔ seen other ∨ links vertex other)
    (keeps : ∀ other, pending other -> other ≠ vertex -> pendingNext other)
    (adds : ∀ other, seenNext other -> ¬seen other -> pendingNext other) :
    Visited links start seenNext pendingNext where
  begun := (sees start).mpr (.inl visited.begun)
  reached := by
    intro other isSeen
    rcases (sees other).mp isSeen with before | linked
    · exact visited.reached other before
    · exact (visited.reached vertex isPending).tail linked
  expanded := by
    intro other isSeen
    by_cases before : seen other
    · rcases visited.expanded other before with waits | done
      · by_cases same : other = vertex
        · subst same
          exact .inr fun next linked => (sees next).mpr (.inr linked)
        · exact .inl (keeps other waits same)
      · exact .inr fun next linked => (sees next).mpr (.inl (done next linked))
    · exact .inl (adds other isSeen before)

theorem seen_iff (drained : ∀ vertex, ¬pending vertex) :
    seen vertex ↔ ReflTransGen links start vertex := by
  constructor
  · exact visited.reached vertex
  · intro path
    induction path with
    | refl => exact visited.begun
    | tail _ linked ih =>
      rcases visited.expanded _ ih with waits | done
      · exact absurd waits (drained _)
      · exact done _ linked

end

end Visited

/-! ## Replacing links -/

variable {linksNext : α -> α -> Prop}

theorem reach_of_detours
    (detours : ∀ vertex other, links vertex other -> ReflTransGen linksNext vertex other)
    (path : ReflTransGen links start vertex) : ReflTransGen linksNext start vertex := by
  induction path with
  | refl => exact .refl
  | tail _ linked ih => exact ih.trans (detours _ _ linked)

/-- Every vertex of a kind can be reached from every other. -/
def Mutual (links : α -> α -> Prop) (kind : α -> Prop) : Prop :=
  ∀ vertex, kind vertex -> ∀ other, kind other -> ReflTransGen links vertex other

/-- A vertex joins: it links to one there was, all it links to leads back to it, and the links
there were have a way round if they are dropped. -/
theorem Mutual.join {kind : α -> Prop} {new first : α} (holds : Mutual links kind)
    (detours : ∀ vertex other, links vertex other -> ReflTransGen linksNext vertex other)
    (isKind : kind first) (joined : linksNext new first) (back : ReflTransGen linksNext first new) :
    Mutual linksNext fun vertex => kind vertex ∨ vertex = new := by
  have toNew (vertex : α) (isOld : kind vertex ∨ vertex = new) :
      ReflTransGen linksNext vertex new := by
    rcases isOld with old | rfl
    · exact (reach_of_detours detours (holds vertex old first isKind)).trans back
    · exact .refl
  have fromNew (vertex : α) (isOld : kind vertex ∨ vertex = new) :
      ReflTransGen linksNext new vertex := by
    rcases isOld with old | rfl
    · exact (reach_of_detours detours (holds first isKind vertex old)).head joined
    · exact .refl
  exact fun vertex isVertex other isOther => (toNew vertex isVertex).trans (fromNew other isOther)

end InlaySql.Lib
