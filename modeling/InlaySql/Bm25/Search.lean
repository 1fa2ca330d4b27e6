import InlaySql.Bm25.Score

/-!
# Searching the full-text index

A search walks the postings of its terms together, document by document, and keeps the best hits.
Once the terms that contribute least cannot lift a document over the weakest hit any more, they
stop driving the walk. The heap of hits is a list with its maximum, the weakest hit, in front.
-/

namespace InlaySql.Bm25

open Sql

structure Scored where
  id : RowId
  score : ℚ
  deriving DecidableEq

/-- The comparison of `Weakest`, which is that of `sort_by_score_desc`: the better hit is less. -/
def weakestCmp (self other : Scored) : Ordering :=
  (compare other.score self.score).then (compare self.id other.id)

def sortByScoreDesc (scores : List Scored) : List Scored :=
  scores.mergeSort fun left right => (weakestCmp left right).isLE

/-! ## The best hits -/

/-- The best `k` hits seen so far. -/
structure TopK where
  k : Nat
  hits : List Scored

namespace TopK

/-- `BinaryHeap::push`. -/
def push (hit : Scored) (hits : List Scored) : List Scored :=
  hits.orderedInsert (fun left right => (weakestCmp right left).isLE) hit

def offer (self : TopK) (hit : Scored) : TopK :=
  if self.hits.length < self.k then { self with hits := push hit self.hits }
  else
    match self.hits with
    | [] => self
    | weakest :: others =>
      if weakestCmp hit weakest = .lt then { self with hits := push hit others } else self

/-- The score a document has to beat, once there are `k` hits. -/
def threshold (self : TopK) : Option ℚ :=
  if self.hits.length < self.k then none else self.hits.head?.map (·.score)

def intoRanked (self : TopK) : List Scored := sortByScoreDesc self.hits

end TopK

/-! ## One term's walk -/

/-- One occurrence of a term in the query, on its way through the postings. -/
structure TermWalk where
  postings : List Posting
  idf : ℚ
  ceiling : ℚ
  position : Nat

namespace TermWalk

/-- The document this walk is parked on. -/
def current (self : TermWalk) : Option Nat := (self.postings[self.position]?).map (·.doc)

/-- The window is doubled until it reaches the document or the end. -/
def gallop (remaining : List Posting) (doc : Nat) : Nat -> Nat -> Nat
  | 0, window => window
  | fuel + 1, window =>
    if window < remaining.length ∧ (remaining[window - 1]?).any (·.doc < doc) then
      gallop remaining doc fuel (window * 2)
    else window

/-- Advance to a document, and report the term's frequency in it. -/
def seek (self : TermWalk) (doc : Nat) : Option Nat × TermWalk :=
  let remaining := self.postings.drop self.position
  let window := remaining.take (gallop remaining doc remaining.length 1)
  let position := self.position + (window.takeWhile (·.doc < doc)).length
  match self.postings[position]? with
  | some posting =>
    if posting.doc = doc then (some posting.frequency, { self with position := position + 1 })
    else (none, { self with position := position })
  | none => (none, { self with position := position })

end TermWalk

namespace Bm25Index

/-! ## The search -/

def average (self : Bm25Index) : ℚ := averageLength self.totalLength self.live

/-- A walk for each occurrence in the query of a term there is. -/
def cursors (logf : ℚ -> ℚ) (isAlphanumeric : Char -> Bool) (self : Bm25Index) (query : String) :
    List TermWalk :=
  (tokenize isAlphanumeric query).filterMap fun term =>
    (self.terms[term]?).map fun ordinal =>
      let postings := self.postingsOf ordinal
      let weight := idf logf self.live postings.length
      ⟨postings, weight, (self.impactOf ordinal).ceiling weight self.average, 0⟩

/-- The walks, the one with the least ceiling first. -/
def orderOf (cursors : List TermWalk) : List Nat :=
  let ceiling (term : Nat) : ℚ := ((cursors[term]?).map (·.ceiling)).getD 0
  (List.range cursors.length).mergeSort fun left right =>
    ((compare (ceiling left) (ceiling right)).then (compare left right)).isLE

/-- What the terms up to each point of the order can contribute together. -/
def headroomOf (cursors : List TermWalk) (order : List Nat) : List ℚ :=
  (order.map fun term => ((cursors[term]?).map (·.ceiling)).getD 0).scanl (· + ·) 0

/-- The next document that a driving walk still has. -/
def nextDoc (cursors : List TermWalk) (driving : List Nat) : Nat :=
  driving.foldl (fun next term =>
    match (cursors[term]?).bind TermWalk.current with
    | some doc => min next doc
    | none => next) Impact.maxU32

/-- What a term contributes to a document of which it reports a frequency. -/
def contributed (self : Bm25Index) (doc : Nat) (weight : ℚ) (frequency : Option Nat) : ℚ :=
  match frequency with
  | some frequency =>
    contribution weight frequency (lengthNormalisation (self.lengthOf doc) self.average)
  | none => 0

/-- Every walk advances to the document, which gets a score. -/
def visit (self : Bm25Index) (cursors : List TermWalk) (doc : Nat) : List TermWalk × ℚ :=
  (cursors.map fun cursor => (cursor.seek doc).2,
    (cursors.map fun cursor => self.contributed doc cursor.idf (cursor.seek doc).1).sum)

/-- Terms are demoted as long as their headroom is below the threshold. -/
def demote (headroom : List ℚ) (threshold : ℚ) : Nat -> Nat -> Nat
  | 0, demoted => demoted
  | left + 1, demoted =>
    if (headroom[demoted + 1]?).any (· < threshold) then
      demote headroom threshold left (demoted + 1)
    else demoted

/-- The loop of `search`. Without fuel it has no answer. -/
def walk (self : Bm25Index) (filter : RowId -> Except Error Bool) (order : List Nat)
    (headroom : List ℚ) : Nat -> List TermWalk -> Nat -> TopK -> Option (Except Error TopK)
  | 0, _, _, _ => none
  | fuel + 1, cursors, demoted, best =>
    let next := nextDoc cursors (order.drop demoted)
    if next = Impact.maxU32 then some (.ok best)
    else
      let id := (self.ids[next]?).getD 0
      match filter id with
      | .error error => some (.error error)
      | .ok admitted =>
        let (walked, score) := self.visit cursors next
        if !admitted then self.walk filter order headroom fuel walked demoted best
        else
          let offered := best.offer ⟨id, score⟩
          match offered.threshold with
          | none => self.walk filter order headroom fuel walked demoted offered
          | some threshold =>
            let demotedNext := demote headroom threshold (order.length - demoted) demoted
            if demotedNext = order.length then some (.ok offered)
            else self.walk filter order headroom fuel walked demotedNext offered

/-- As many steps as there are postings, and one to see that none is left. -/
def fuel (cursors : List TermWalk) : Nat := (cursors.map (·.postings.length)).sum + 1

def search (logf : ℚ -> ℚ) (isAlphanumeric : Char -> Bool) (self : Bm25Index) (query : String)
    (k : Nat) (filter : Option (RowId -> Except Error Bool)) :
    Option (Except Error (List Scored)) :=
  if self.live = 0 ∨ k = 0 then some (.ok [])
  else
    let cursors := self.cursors logf isAlphanumeric query
    if cursors = [] then some (.ok [])
    else
      let order := orderOf cursors
      (self.walk (filter.getD fun _ => .ok true) order (headroomOf cursors order) (fuel cursors)
        cursors 0 ⟨k, []⟩).map (·.map TopK.intoRanked)

/-! ## Reading every posting -/

/-- The document's score from the postings of every term. -/
def scoreOf (self : Bm25Index) (cursors : List TermWalk) (doc : Nat) : ℚ :=
  (cursors.map fun cursor => self.contributed doc cursor.idf
    ((cursor.postings.find? (·.doc = doc)).map (·.frequency))).sum

/-- The best admitted documents, when every document under a term of the query is scored. -/
def exhaustive (logf : ℚ -> ℚ) (isAlphanumeric : Char -> Bool) (self : Bm25Index) (query : String)
    (k : Nat) (admits : RowId -> Bool) : List Scored :=
  let cursors := self.cursors logf isAlphanumeric query
  let hits := self.ordinals.toList.filterMap fun (id, ordinal) =>
    if admits id ∧ ∃ cursor ∈ cursors, ∃ posting ∈ cursor.postings, posting.doc = ordinal then
      some ⟨id, self.scoreOf cursors ordinal⟩
    else none
  (sortByScoreDesc hits).take k

end Bm25Index

end InlaySql.Bm25
