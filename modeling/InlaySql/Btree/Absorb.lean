import InlaySql.Btree.Metadata
import InlaySql.Lib.Transition

/-!
# Commit-side absorption

A writer that arrives while another holds the gate parks its transaction in a queue.
The gate holder takes what is parked, commits it and files an answer for each token;
the owner polls for its answer. Leaders answer after they left the gate, so several
cohorts may be out at once.

`fail_in_flight` answers every token any leader has taken. The answers stay unique as
long as it is only called when those are all the caller's own.
-/

namespace InlaySql.Btree

open List Lib

/-- A parked transaction: the root it was built on and its operations. -/
structure AbsorbTxn where
  root : Nat
  ops : PendingOps

structure Parked where
  token : Nat
  gateGeneration : Nat
  txn : AbsorbTxn

def Parked.place (parked : Parked) : Nat × PendingOps := (parked.token, parked.txn.ops)

/-- What became of a parked transaction. -/
inductive AbsorbResult where
  | committed (root next seq : Nat) (generation : Option Nat)
  | conflict (root next seq : Nat) (generation : Option Nat)
  | failed (reason : String)
  | fallback
  deriving DecidableEq, Repr

/-- An answer as it is filed: the token, the result and the operations handed back. -/
abbrev Answer := Nat × AbsorbResult × PendingOps

/-- `AbsorbQueue`. `resolved` is only looked up by token, so it is kept as a list. -/
structure AbsorbQueue where
  enabled : Bool
  gateHeld : Bool := false
  nextToken : Nat := 0
  parked : List Parked := []
  inFlight : List Nat := []
  resolved : List Answer := []
  gateGeneration : Nat := 0
  cohorts : Nat := 0
  members : Nat := 0
  committed : Nat := 0

namespace AbsorbQueue

def cohortMax : Nat := 32

def gateAcquired (queue : AbsorbQueue) : AbsorbQueue := { queue with gateHeld := true }

def gateReleased (queue : AbsorbQueue) : AbsorbQueue :=
  { queue with gateHeld := false, gateGeneration := queue.gateGeneration + 1 }

/-- `offer`: the token, and what is left of the caller's operations. -/
def offer (queue : AbsorbQueue) (root : Nat) (ops : PendingOps) :
    Option Nat × PendingOps × AbsorbQueue :=
  if !queue.enabled || queue.parked.length ≥ cohortMax then (none, ops, queue)
  else
    let token := queue.nextToken + 1
    let parked := { token, gateGeneration := queue.gateGeneration, txn := { root, ops } }
    (some token, ∅, { queue with nextToken := token, parked := queue.parked ++ [parked] })

def take (queue : AbsorbQueue) : List (Nat × AbsorbTxn) × AbsorbQueue :=
  if !queue.enabled || queue.parked.isEmpty then ([], queue)
  else
    let cohort := queue.parked.map fun parked => (parked.token, parked.txn)
    (cohort, { queue with
      parked := []
      cohorts := queue.cohorts + 1
      members := queue.members + cohort.length
      inFlight := queue.inFlight ++ cohort.map Prod.fst })

/-- File an answer, replacing one filed before. -/
def file (queue : AbsorbQueue) (answer : Answer) : AbsorbQueue :=
  { queue with resolved := queue.resolved.filter (fun old => old.1 != answer.1) ++ [answer] }

/-- One turn of the loop in `resolve`. -/
def resolveOne (queue : AbsorbQueue) (answer : Answer) : AbsorbQueue :=
  let released := { queue with
    inFlight := queue.inFlight.filter (· != answer.1)
    committed := match answer.2.1 with
      | .committed .. => queue.committed + 1
      | _ => queue.committed }
  released.file answer

def failInFlight (queue : AbsorbQueue) (reason : String) : AbsorbQueue :=
  queue.inFlight.foldl (fun queue token => queue.file (token, .failed reason, ∅))
    { queue with inFlight := [] }

/-- `wait_step`: the final answer if there is one, and the operations left with the
caller. -/
def waitStep (queue : AbsorbQueue) (token : Nat) (ops : PendingOps) :
    Option AbsorbResult × PendingOps × AbsorbQueue :=
  match queue.resolved.find? (·.1 == token) with
  | some (_, result, returned) =>
    (some result, returned,
      { queue with resolved := queue.resolved.filter (·.1 != token) })
  | none =>
    match queue.parked.find? (·.token == token) with
    | none => (none, ops, queue)
    | some parked =>
      if parked.gateGeneration = queue.gateGeneration ∧ queue.gateHeld then (none, ops, queue)
      else (some .fallback, parked.txn.ops,
        { queue with parked := queue.parked.eraseP (·.token == token) })

end AbsorbQueue

/-! ## Writers and leaders -/

/-- A transaction a leader has taken and not answered yet. -/
structure Taken where
  leader : Nat
  token : Nat
  txn : AbsorbTxn

def Taken.place (held : Taken) : Nat × PendingOps := (held.token, held.txn.ops)

/-- The queue with what its callers hold: the transactions in leaders' hands, and a log
of what was offered, of what leaders consumed and of the answers delivered. -/
structure Cohorts where
  queue : AbsorbQueue
  taken : List Taken := []
  offered : List (Nat × PendingOps) := []
  spent : List Nat := []
  answers : List Answer := []

/-- The calls on a queue. -/
inductive AbsorbCall where
  | gateAcquired
  | gateReleased
  | offer (root : Nat) (ops : PendingOps)
  | take (leader : Nat)
  | resolve (leader : Nat) (results : List Answer)
  | failInFlight (leader : Nat) (reason : String)
  | wait (token : Nat) (ops : PendingOps)

namespace Cohorts

/-- The leader lets go of a transaction it answers. Unless it says `Fallback`, the
operations were consumed. -/
def answered (cohorts : Cohorts) (answer : Answer) : Cohorts :=
  { cohorts with
    queue := cohorts.queue.resolveOne answer
    taken := cohorts.taken.filter (·.token != answer.1)
    spent := if answer.2.1 = .fallback then cohorts.spent else cohorts.spent ++ [answer.1] }

/-- What a call does. -/
def call (cohorts : Cohorts) : AbsorbCall -> Cohorts
  | .gateAcquired => { cohorts with queue := cohorts.queue.gateAcquired }
  | .gateReleased => { cohorts with queue := cohorts.queue.gateReleased }
  | .offer root ops =>
    match cohorts.queue.offer root ops with
    | (some token, _, queue) =>
      { cohorts with queue, offered := cohorts.offered ++ [(token, ops)] }
    | (none, _, queue) => { cohorts with queue }
  | .take leader =>
    let (cohort, queue) := cohorts.queue.take
    { cohorts with
      queue
      taken := cohorts.taken ++ cohort.map fun member => ⟨leader, member.1, member.2⟩ }
  | .resolve _ results => results.foldl answered cohorts
  | .failInFlight leader reason =>
    let mine := (cohorts.taken.filter (·.leader == leader)).map (·.token)
    { cohorts with
      queue := cohorts.queue.failInFlight reason
      taken := cohorts.taken.filter (·.leader != leader)
      spent := cohorts.spent ++ mine }
  | .wait token ops =>
    match cohorts.queue.waitStep token ops with
    | (some result, returned, queue) =>
      { cohorts with queue, answers := cohorts.answers ++ [(token, result, returned)] }
    | (none, _, queue) => { cohorts with queue }

/-- A leader answers each transaction it took at most once, and one it hands back with
the operations it took. -/
def Answers (cohorts : Cohorts) (leader : Nat) (results : List Answer) : Prop :=
  (results.map Prod.fst).Nodup ∧ ∀ answer ∈ results, ∃ held ∈ cohorts.taken,
    held.leader = leader ∧ held.token = answer.1 ∧
      (answer.2.1 = .fallback -> answer.2.2 = held.txn.ops)

/-- Every transaction in flight was taken by one leader. -/
def InFlightOf (cohorts : Cohorts) (leader : Nat) : Prop :=
  ∀ held ∈ cohorts.taken, held.token ∈ cohorts.queue.inFlight -> held.leader = leader

/-- When a call may be made. Under `guarded`, `fail_in_flight` is called only by a leader
none but whose transactions are in flight. -/
def Allowed (guarded : Prop) (cohorts : Cohorts) : AbsorbCall -> Prop
  | .resolve leader results => cohorts.Answers leader results
  | .failInFlight leader _ => guarded -> cohorts.InFlightOf leader
  | _ => True

/-- Operations stored beside a `Fallback` answer. -/
def returned (answer : Answer) : Option (Nat × PendingOps) :=
  if answer.2.1 = .fallback then some (answer.1, answer.2.2) else none

/-- Every place that holds the operations of an offered transaction. -/
def places (cohorts : Cohorts) : List (Nat × PendingOps) :=
  cohorts.queue.parked.map Parked.place ++ cohorts.taken.map Taken.place ++
    cohorts.queue.resolved.filterMap returned

/-- A transaction is over once its leader consumed it or its owner has it back. -/
def finished (cohorts : Cohorts) (token : Nat) : Bool :=
  cohorts.spent.contains token ||
    cohorts.answers.any fun answer => answer.1 == token && answer.2.1 == .fallback

end Cohorts

/-- Any sequence of calls on a queue by writers and overlapping leaders. -/
def absorbing (guarded : Prop) : System Cohorts AbsorbCall where
  Initial cohorts := ∃ enabled, cohorts = { queue := { enabled } }
  Step cohorts call next := cohorts.Allowed guarded call ∧ next = cohorts.call call

/-! ## What each call does -/

namespace Cohorts

variable (cohorts : Cohorts)

theorem call_offer (root : Nat) (ops : PendingOps) : cohorts.call (.offer root ops) = cohorts ∨
      cohorts.call (.offer root ops) = { cohorts with
        queue := { cohorts.queue with
          nextToken := cohorts.queue.nextToken + 1
          parked := cohorts.queue.parked ++ [⟨cohorts.queue.nextToken + 1,
            cohorts.queue.gateGeneration, root, ops⟩] }
        offered := cohorts.offered ++ [(cohorts.queue.nextToken + 1, ops)] } := by
  simp only [call, AbsorbQueue.offer]
  by_cases refused : (!cohorts.queue.enabled ||
      decide (cohorts.queue.parked.length ≥ AbsorbQueue.cohortMax)) = true
  · rw [if_pos refused]
    exact .inl rfl
  · rw [if_neg refused]
    exact .inr rfl

theorem call_take (leader : Nat) : cohorts.call (.take leader) = cohorts ∨
      ∃ cohortCount memberCount, cohorts.call (.take leader) = { cohorts with
        queue := { cohorts.queue with
          parked := []
          cohorts := cohortCount
          members := memberCount
          inFlight := cohorts.queue.inFlight ++ cohorts.queue.parked.map Parked.token }
        taken := cohorts.taken ++
          cohorts.queue.parked.map fun parked => ⟨leader, parked.token, parked.txn⟩ } := by
  simp only [call, AbsorbQueue.take]
  by_cases nothing : (!cohorts.queue.enabled || cohorts.queue.parked.isEmpty) = true
  · rw [if_pos nothing]
    simp
  · rw [if_neg nothing]
    refine .inr ⟨cohorts.queue.cohorts + 1, cohorts.queue.members + cohorts.queue.parked.length, ?_⟩
    simp [Function.comp_def]

/-- A poll finds an answer, finds its transaction left behind by the gate hold it was
offered into, or finds nothing. -/
theorem call_wait (token : Nat) (ops : PendingOps) : cohorts.call (.wait token ops) = cohorts ∨
      (∃ result given, (token, result, given) ∈ cohorts.queue.resolved ∧
        cohorts.call (.wait token ops) = { cohorts with
          queue := { cohorts.queue with
            resolved := cohorts.queue.resolved.filter (·.1 != token) }
          answers := cohorts.answers ++ [(token, result, given)] }) ∨
      ∃ parked ∈ cohorts.queue.parked, parked.token = token ∧
        cohorts.call (.wait token ops) = { cohorts with
          queue := { cohorts.queue with
            parked := cohorts.queue.parked.eraseP (·.token == token) }
          answers := cohorts.answers ++ [(token, .fallback, parked.txn.ops)] } := by
  simp only [call, AbsorbQueue.waitStep]
  cases found : cohorts.queue.resolved.find? (·.1 == token) with
  | some answer =>
    obtain ⟨stored, result, given⟩ := answer
    have member := mem_of_find?_eq_some found
    obtain rfl : stored = token := by simpa using find?_some found
    exact .inr (.inl ⟨result, given, member, rfl⟩)
  | none =>
    cases waiting : cohorts.queue.parked.find? (·.token == token) with
    | none => exact .inl rfl
    | some parked =>
      have member := mem_of_find?_eq_some waiting
      have same : parked.token = token := by simpa using find?_some waiting
      by_cases current : parked.gateGeneration = cohorts.queue.gateGeneration ∧
          cohorts.queue.gateHeld = true
      · simp only [if_pos current, true_or]
      · simp only [if_neg current]
        exact .inr (.inr ⟨parked, member, same, rfl⟩)

end Cohorts

/-! ## One place for each transaction -/

namespace Cohorts

/-- What every call keeps: the operations of each transaction that is not over are in
exactly one place. -/
structure Conserved (cohorts : Cohorts) : Prop where
  fresh : ∀ offer ∈ cohorts.offered, offer.1 ≤ cohorts.queue.nextToken
  distinct : (cohorts.offered.map Prod.fst).Nodup
  filed : (cohorts.queue.resolved.map Prod.fst).Nodup
  held : ∀ token ∈ cohorts.queue.inFlight, ∃ held ∈ cohorts.taken, held.token = token
  consumed : ∀ token ∈ cohorts.spent, ∃ ops, (token, ops) ∈ cohorts.offered
  handedBack : ∀ token ops, (token, .fallback, ops) ∈ cohorts.answers ->
    (token, ops) ∈ cohorts.offered
  places : cohorts.places.Perm (cohorts.offered.filter fun offer => !cohorts.finished offer.1)

variable {cohorts next : Cohorts}

section

variable (kept : Conserved cohorts)

include kept

theorem Conserved.place_offered {place : Nat × PendingOps} (isPlace : place ∈ cohorts.places) :
    place ∈ cohorts.offered ∧ cohorts.finished place.1 = false := by
  have member := kept.places.mem_iff.mp isPlace
  simpa using mem_filter.mp member

theorem Conserved.tokens_distinct : (cohorts.places.map Prod.fst).Nodup := by
  rw [(kept.places.map Prod.fst).nodup_iff]
  exact kept.distinct.sublist (filter_sublist.map Prod.fst)

theorem Conserved.apart :
    ((cohorts.queue.parked.map Parked.token).Nodup ∧ (cohorts.taken.map Taken.token).Nodup) ∧
      (∀ parked ∈ cohorts.queue.parked, ∀ held ∈ cohorts.taken, parked.token ≠ held.token) ∧
      ∀ place ∈ cohorts.queue.resolved.filterMap returned,
        (∀ parked ∈ cohorts.queue.parked, parked.token ≠ place.1) ∧
          ∀ held ∈ cohorts.taken, held.token ≠ place.1 := by
  have distinct := kept.tokens_distinct
  simp only [Cohorts.places, map_append, map_map] at distinct
  obtain ⟨front, -, across⟩ := nodup_append.mp distinct
  obtain ⟨parked, taken, between⟩ := nodup_append.mp front
  refine ⟨⟨parked, taken⟩, ?_, ?_⟩
  · intro one isParked other isTaken
    exact between _ (mem_map_of_mem isParked) _ (mem_map_of_mem isTaken)
  · intro place isPlace
    have last := mem_map_of_mem (f := Prod.fst) isPlace
    constructor
    · intro one isParked
      exact across _ (mem_append_left _ (mem_map_of_mem isParked)) _ last
    · intro other isTaken
      exact across _ (mem_append_right _ (mem_map_of_mem isTaken)) _ last

end

theorem perm_of_removed (gone : Nat -> Bool) (kept : Conserved cohorts)
    (same : next.offered = cohorts.offered)
    (places : next.places = cohorts.places.filter fun place => !gone place.1)
    (finished : ∀ token, next.finished token = (cohorts.finished token || gone token)) :
    next.places.Perm (next.offered.filter fun offer => !next.finished offer.1) := by
  rw [places, same]
  refine (kept.places.filter _).trans (List.Perm.of_eq ?_)
  rw [filter_filter]
  apply filter_congr
  intro offer _
  rw [finished, Bool.not_or, Bool.and_comm]

theorem Conserved.offer (kept : Conserved cohorts) (root : Nat) (ops : PendingOps) :
    Conserved (cohorts.call (.offer root ops)) := by
  rcases cohorts.call_offer root ops with refused | accepted
  · rw [refused]
    exact kept
  · rw [accepted]
    have unused : ∀ other, (cohorts.queue.nextToken + 1, other) ∉ cohorts.offered := by
      intro other member
      have := kept.fresh _ member
      simp only at this
      omega
    have running : cohorts.finished (cohorts.queue.nextToken + 1) = false := by
      unfold finished
      rw [Bool.or_eq_false_iff]
      constructor
      · by_contra spent
        obtain ⟨other, member⟩ := kept.consumed _ (by simpa using spent)
        exact unused other member
      · by_contra back
        simp only [Bool.not_eq_false, any_eq_true, Bool.and_eq_true, beq_iff_eq] at back
        obtain ⟨⟨token, result, other⟩, member, same, isFallback⟩ := back
        simp only at same isFallback
        rw [same, isFallback] at member
        exact unused other (kept.handedBack _ _ member)
    refine ⟨?_, ?_, kept.filed, kept.held, ?_, ?_, ?_⟩
    · intro offer member
      rcases mem_append.mp member with old | new
      · have := kept.fresh offer old
        simp only
        omega
      · rw [mem_singleton.mp new]
    · rw [map_append, nodup_append]
      refine ⟨kept.distinct, by simp, ?_⟩
      rintro _ member _ new rfl
      obtain ⟨⟨token, other⟩, isOffered, rfl⟩ := mem_map.mp member
      obtain rfl : token = _ := by simpa using new
      exact unused other isOffered
    · intro token member
      obtain ⟨other, isOffered⟩ := kept.consumed token member
      exact ⟨other, mem_append_left _ isOffered⟩
    · intro token other member
      exact mem_append_left _ (kept.handedBack token other member)
    · have split : ((cohorts.offered ++ [(cohorts.queue.nextToken + 1, ops)]).filter
          fun offer => !cohorts.finished offer.1) =
          (cohorts.offered.filter fun offer => !cohorts.finished offer.1) ++
            [(cohorts.queue.nextToken + 1, ops)] := by
        rw [filter_append]
        simp [running]
      change List.Perm _ (List.filter (fun offer : Nat × PendingOps => !cohorts.finished offer.1) _)
      rw [split]
      refine List.Perm.trans ?_ (kept.places.append_right _)
      simp only [Cohorts.places, map_append, map_cons, map_nil, Parked.place, append_assoc]
      apply List.Perm.append_left
      refine (perm_append_comm).trans ?_
      simp only [append_assoc]
      exact List.Perm.refl _

theorem Conserved.take (kept : Conserved cohorts) (leader : Nat) :
    Conserved (cohorts.call (.take leader)) := by
  rcases cohorts.call_take leader with nothing | ⟨cohortCount, memberCount, taken⟩
  · rw [nothing]
    exact kept
  · rw [taken]
    refine ⟨kept.fresh, kept.distinct, kept.filed, ?_, kept.consumed, kept.handedBack, ?_⟩
    · intro token member
      rcases mem_append.mp member with old | new
      · obtain ⟨held, isHeld, same⟩ := kept.held token old
        exact ⟨held, mem_append_left _ isHeld, same⟩
      · obtain ⟨parked, isParked, same⟩ := mem_map.mp new
        exact ⟨_, mem_append_right _ (mem_map_of_mem isParked), same⟩
    · refine List.Perm.trans ?_ kept.places
      simp only [Cohorts.places, map_nil, nil_append, map_append, map_map]
      apply List.Perm.append_right
      exact perm_append_comm

theorem filterMap_returned_filter (answers : List Answer) (token : Nat) :
    (answers.filter (·.1 != token)).filterMap returned =
      (answers.filterMap returned).filter fun place => !(place.1 == token) := by
  rw [filterMap_filter, filter_filterMap]
  apply filterMap_congr
  intro answer _
  by_cases isFallback : answer.2.1 = .fallback
  · by_cases same : answer.1 = token <;> simp [returned, isFallback, same, Option.filter]
  · simp [returned, isFallback]

theorem places_filter (cohorts : Cohorts) (gone : Nat -> Bool) :
    (cohorts.places.filter fun place => !gone place.1) =
      (cohorts.queue.parked.filter fun parked => !gone parked.token).map Parked.place ++
        (cohorts.taken.filter fun held => !gone held.token).map Taken.place ++
        (cohorts.queue.resolved.filterMap returned).filter fun place => !gone place.1 := by
  simp only [Cohorts.places, filter_append, filter_map]
  rfl

theorem finished_answer (cohorts : Cohorts) (queue : AbsorbQueue) (answer : Answer) (token : Nat) :
    finished { cohorts with queue, answers := cohorts.answers ++ [answer] } token =
      (cohorts.finished token || token == answer.1 && answer.2.1 == .fallback) := by
  simp only [finished, any_append, any_cons, any_nil, Bool.or_false, Bool.or_assoc, Bool.beq_comm]

theorem nodup_file {filed : List Answer} (distinct : (filed.map Prod.fst).Nodup) (answer : Answer) :
    ((filed.filter (·.1 != answer.1) ++ [answer]).map Prod.fst).Nodup := by
  rw [map_append, nodup_append]
  refine ⟨distinct.sublist (filter_sublist.map _), by simp, ?_⟩
  rintro _ member _ new rfl
  obtain ⟨old, isOld, rfl⟩ := mem_map.mp member
  have differs := (mem_filter.mp isOld).2
  simp only [map_cons, map_nil, mem_singleton] at new
  simp [new] at differs

section

variable {α : Type} (key : α -> Nat) {entries : List α} {entry : α}
    (distinct : (entries.map key).Nodup) (member : entry ∈ entries)

include key distinct member

theorem filter_eq_singleton : entries.filter (fun other => key other == key entry) = [entry] := by
  induction entries with
  | nil => cases member
  | cons first rest ih =>
    obtain ⟨absent, distinct⟩ := nodup_cons.mp distinct
    rcases mem_cons.mp member with rfl | later
    · have none : rest.filter (fun other => key other == key entry) = [] := by
        rw [filter_eq_nil_iff]
        intro other isOther
        simp only [beq_iff_eq]
        exact fun same => absent (same ▸ mem_map_of_mem isOther)
      rw [filter_cons_of_pos (by simp), none]
    · have differs : key first ≠ key entry := fun same =>
        absent (same ▸ mem_map_of_mem later)
      rw [filter_cons_of_neg (by simpa using differs), ih distinct later]

theorem perm_cons_filter :
    (entry :: entries.filter (fun other => !(key other == key entry))).Perm entries := by
  have parts := filter_append_perm (fun other => key other == key entry) entries
  rw [filter_eq_singleton key distinct member] at parts
  exact parts

end

variable {answer : Answer} {leader : Nat} {results : List Answer} (reason : String)

theorem Conserved.answered (kept : Conserved cohorts) {held : Taken}
    (isHeld : held ∈ cohorts.taken) (same : held.token = answer.1)
    (intact : answer.2.1 = .fallback -> answer.2.2 = held.txn.ops) :
    Conserved (cohorts.answered answer) := by
  obtain ⟨-, parkedApart, returnedApart⟩ := kept.apart
  have isPlace : held.place ∈ cohorts.places :=
    mem_append_left _ (mem_append_right _ (mem_map_of_mem isHeld))
  obtain ⟨isOffered, -⟩ := kept.place_offered isPlace
  -- Only the leader holds the token.
  have unstored : ((cohorts.queue.resolved.filterMap returned).filter
      fun place => !(place.1 == answer.1)) = cohorts.queue.resolved.filterMap returned := by
    apply filter_eq_self.mpr
    intro place member
    have differs := (returnedApart place member).2 held isHeld
    rw [same] at differs
    simpa using differs.symm
  have unparked : (cohorts.queue.parked.filter fun parked => !(parked.token == answer.1)) =
      cohorts.queue.parked := by
    apply filter_eq_self.mpr
    intro parked isParked
    have differs := parkedApart parked isParked held isHeld
    rw [same] at differs
    simpa using differs
  have dropped : cohorts.queue.parked.map Parked.place ++
      (cohorts.taken.filter (·.token != answer.1)).map Taken.place ++
      cohorts.queue.resolved.filterMap returned =
        cohorts.places.filter fun place => !(place.1 == answer.1) := by
    rw [cohorts.places_filter fun token => token == answer.1, unparked, unstored]
    rfl
  constructor
  · exact kept.fresh
  · exact kept.distinct
  · exact nodup_file kept.filed answer
  · intro token member
    obtain ⟨inFlight, differs⟩ := mem_filter.mp member
    obtain ⟨other, isOther, isToken⟩ := kept.held token inFlight
    refine ⟨other, mem_filter.mpr ⟨isOther, ?_⟩, isToken⟩
    rw [isToken]
    exact differs
  · intro token member
    simp only [Cohorts.answered] at member
    split at member
    · exact kept.consumed token member
    · rcases mem_append.mp member with old | new
      · exact kept.consumed token old
      · rw [mem_singleton.mp new, <- same]
        exact ⟨_, isOffered⟩
  · exact kept.handedBack
  · by_cases isFallback : answer.2.1 = .fallback
    · have finished : (cohorts.answered answer).finished = cohorts.finished := by
        funext token
        simp [Cohorts.finished, Cohorts.answered, isFallback]
      have places : (cohorts.answered answer).places =
          (cohorts.places.filter fun place => !(place.1 == held.place.1)) ++ [held.place] := by
        rw [show held.place.1 = answer.1 from same, <- dropped]
        simp only [Cohorts.answered, Cohorts.places, AbsorbQueue.resolveOne, AbsorbQueue.file,
          filterMap_append, filterMap_returned_filter, unstored, append_assoc]
        simp [returned, isFallback, Taken.place, same, intact isFallback]
      rw [places, finished]
      refine (perm_append_singleton _ _).trans ?_
      exact (perm_cons_filter Prod.fst kept.tokens_distinct isPlace).trans kept.places
    · have same : (cohorts.answered answer).offered = cohorts.offered := rfl
      apply perm_of_removed (fun token => token == answer.1) kept same
      · rw [<- dropped]
        simp only [Cohorts.answered, Cohorts.places, AbsorbQueue.resolveOne, AbsorbQueue.file,
          filterMap_append, filterMap_returned_filter, unstored]
        simp [returned, isFallback]
      · intro token
        simp only [Cohorts.finished, Cohorts.answered, isFallback, if_false,
          contains_append, Bool.or_right_comm, contains_cons, contains_nil,
          Bool.or_false]

theorem Answers.tail (answers : cohorts.Answers leader (answer :: results)) :
    (cohorts.answered answer).Answers leader results := by
  obtain ⟨distinct, taken⟩ := answers
  obtain ⟨absent, distinct⟩ := nodup_cons.mp distinct
  refine ⟨distinct, ?_⟩
  intro other member
  obtain ⟨stays, isHeld, rest⟩ := taken other (mem_cons_of_mem _ member)
  refine ⟨stays, mem_filter.mpr ⟨isHeld, ?_⟩, rest⟩
  have differs : other.1 ≠ answer.1 := fun equal =>
    absent (equal ▸ mem_map_of_mem member)
  simpa [rest.2.1] using differs

theorem Conserved.resolve (kept : Conserved cohorts) (answers : cohorts.Answers leader results) :
    Conserved (results.foldl Cohorts.answered cohorts) := by
  induction results generalizing cohorts with
  | nil => exact kept
  | cons answer results ih =>
    obtain ⟨held, isHeld, -, same, intact⟩ := answers.2 answer (by simp)
    exact ih (kept.answered isHeld same intact) answers.tail

theorem failInFlight_eq (queue : AbsorbQueue) (reason : String) :
    queue.failInFlight reason = { queue with
      inFlight := []
      resolved := (queue.inFlight.foldl
        (fun filed token => filed.filter (·.1 != token) ++ [(token, .failed reason, ∅)])
        queue.resolved) } := by
  unfold AbsorbQueue.failInFlight
  generalize queue.inFlight = tokens
  have general : ∀ (start : AbsorbQueue), tokens.foldl
      (fun queue token => queue.file (token, .failed reason, ∅)) start = { start with
        resolved := tokens.foldl
          (fun filed token => filed.filter (·.1 != token) ++ [(token, .failed reason, ∅)])
          start.resolved } := by
    induction tokens with
    | nil => exact fun start => rfl
    | cons token tokens ih => exact fun start => ih _
  exact general _

theorem foldl_failed (tokens : List Nat) (filed : List Answer)
    (distinct : (filed.map Prod.fst).Nodup) :
    ((tokens.foldl (fun filed token => filed.filter (·.1 != token) ++
        [(token, AbsorbResult.failed reason, (∅ : PendingOps))]) filed).map Prod.fst).Nodup ∧
      ((tokens.foldl (fun filed token => filed.filter (·.1 != token) ++
        [(token, AbsorbResult.failed reason, (∅ : PendingOps))]) filed).filterMap returned) =
          (filed.filterMap returned).filter fun place => !tokens.contains place.1 := by
  induction tokens generalizing filed with
  | nil => exact ⟨distinct, by simp⟩
  | cons token tokens ih =>
    obtain ⟨distinct, stored⟩ := ih _ (nodup_file distinct (token, .failed reason, ∅))
    refine ⟨distinct, ?_⟩
    rw [foldl_cons, stored, filterMap_append, filterMap_returned_filter]
    simp only [returned, filterMap_cons, filterMap_nil, reduceCtorEq, if_false,
      append_nil, filter_filter, contains_cons]
    apply filter_congr
    intro place _
    rw [Bool.not_or, Bool.and_comm]

theorem Conserved.failInFlight (kept : Conserved cohorts) (leader : Nat) (reason : String) :
    Conserved (cohorts.call (.failInFlight leader reason)) := by
  obtain ⟨⟨-, distinct⟩, parkedApart, returnedApart⟩ := kept.apart
  obtain ⟨filed, stored⟩ :=
    foldl_failed reason cohorts.queue.inFlight cohorts.queue.resolved kept.filed
  -- A token in flight is in a leader's hands, so nothing is stored beside an answer to it.
  have untouched : ((cohorts.queue.resolved.filterMap returned).filter
      fun place => !cohorts.queue.inFlight.contains place.1) =
        cohorts.queue.resolved.filterMap returned := by
    apply filter_eq_self.mpr
    intro place member
    simp only [Bool.not_eq_true', contains_eq_mem, decide_eq_false_iff_not]
    intro inFlight
    obtain ⟨held, isHeld, same⟩ := kept.held _ inFlight
    exact (returnedApart place member).2 held isHeld same
  simp only [call, failInFlight_eq]
  constructor
  · exact kept.fresh
  · exact kept.distinct
  · exact filed
  · intro token member
    cases member
  · intro token member
    rcases mem_append.mp member with old | new
    · exact kept.consumed token old
    · obtain ⟨held, isMine, rfl⟩ := mem_map.mp new
      have isPlace : held.place ∈ cohorts.places := mem_append_left _
        (mem_append_right _ (mem_map_of_mem (mem_of_mem_filter isMine)))
      exact ⟨_, (kept.place_offered isPlace).1⟩
  · exact kept.handedBack
  · refine perm_of_removed
      (fun token => ((cohorts.taken.filter (·.leader == leader)).map (·.token)).contains token)
      kept ?_ ?_ ?_
    · rfl
    · -- Only the leader's own transactions leave its hands.
      have ours : ∀ held ∈ cohorts.taken, (held.leader != leader) =
          !((cohorts.taken.filter (·.leader == leader)).map (·.token)).contains held.token := by
        intro held isHeld
        by_cases mine : held.leader = leader
        · have member : held.token ∈ (cohorts.taken.filter (·.leader == leader)).map (·.token) :=
            mem_map_of_mem (mem_filter.mpr ⟨isHeld, by simpa using mine⟩)
          simp only [mine, bne_self_eq_false, contains_eq_mem, member, decide_true, Bool.not_true]
        · have absent : held.token ∉ (cohorts.taken.filter (·.leader == leader)).map (·.token) := by
            intro member
            obtain ⟨other, isOther, same⟩ := mem_map.mp member
            obtain ⟨isTaken, isLeader⟩ := mem_filter.mp isOther
            have equal := inj_on_of_nodup_map distinct isTaken isHeld same
            rw [equal] at isLeader
            exact mine (by simpa using isLeader)
          simp only [contains_eq_mem, absent, decide_false, Bool.not_false, bne_iff_ne, ne_eq,
            mine, not_false_eq_true]
      have absent : ∀ token, (∀ held ∈ cohorts.taken, held.token ≠ token) ->
          (!((cohorts.taken.filter (·.leader == leader)).map (·.token)).contains token) = true := by
        intro token elsewhere
        simp only [Bool.not_eq_true', contains_eq_mem, decide_eq_false_iff_not]
        intro member
        obtain ⟨held, isMine, same⟩ := mem_map.mp member
        exact elsewhere held (mem_of_mem_filter isMine) same
      rw [places_filter, filter_eq_self.mpr fun parked isParked => absent _
          fun held isHeld => (parkedApart parked isParked held isHeld).symm,
        filter_eq_self.mpr fun place isPlace => absent _ (returnedApart place isPlace).2,
        <- filter_congr ours]
      simp only [Cohorts.places, stored, untouched]
    · intro token
      simp only [Cohorts.finished, contains_append, Bool.or_right_comm]

theorem eraseP_eq_filter {parked : List Parked} (distinct : (parked.map Parked.token).Nodup)
    (token : Nat) :
    parked.eraseP (·.token == token) = parked.filter fun one => !(one.token == token) := by
  induction parked with
  | nil => rfl
  | cons first rest ih =>
    obtain ⟨absent, distinct⟩ := nodup_cons.mp distinct
    by_cases same : first.token = token
    · have none : (rest.filter fun one => !(one.token == token)) = rest := by
        apply filter_eq_self.mpr
        intro one member
        have differs : one.token ≠ token := fun equal =>
          absent (by rw [same, <- equal]; exact mem_map_of_mem member)
        simpa using differs
      rw [eraseP_cons_of_pos (by simpa using same), filter_cons_of_neg (by simpa using same), none]
    · rw [eraseP_cons_of_neg (by simpa using same),
        filter_cons_of_pos (by simpa using same), ih distinct]

theorem Conserved.wait (kept : Conserved cohorts) (token : Nat) (ops : PendingOps) :
    Conserved (cohorts.call (.wait token ops)) := by
  obtain ⟨⟨distinct, -⟩, parkedApart, returnedApart⟩ := kept.apart
  rcases cohorts.call_wait token ops with nothing | ⟨result, given, isFiled, answered⟩ |
    ⟨parked, isParked, same, left⟩
  · rw [nothing]
    exact kept
  · rw [answered]
    have still : (cohorts.queue.resolved.filter (·.1 != token)).map Prod.fst |>.Nodup :=
      kept.filed.sublist (filter_sublist.map _)
    by_cases isFallback : result = .fallback
    · subst isFallback
      have stored : (token, given) ∈ cohorts.queue.resolved.filterMap returned :=
        mem_filterMap.mpr ⟨_, isFiled, by simp [returned]⟩
      obtain ⟨isOffered, -⟩ := kept.place_offered (mem_append_right _ stored)
      refine ⟨kept.fresh, kept.distinct, still, kept.held, kept.consumed, ?_, ?_⟩
      · intro other back member
        rcases mem_append.mp member with old | new
        · exact kept.handedBack other back old
        · cases mem_singleton.mp new
          exact isOffered
      · refine perm_of_removed (fun other => other == token) kept ?_ ?_ ?_
        · rfl
        · obtain ⟨parkedElsewhere, takenElsewhere⟩ := returnedApart _ stored
          have unparked : (cohorts.queue.parked.filter fun parked => !(parked.token == token)) =
              cohorts.queue.parked :=
            filter_eq_self.mpr fun parked isParked => by
              simpa using parkedElsewhere parked isParked
          have untaken : (cohorts.taken.filter fun held => !(held.token == token)) =
              cohorts.taken :=
            filter_eq_self.mpr fun held isHeld => by simpa using takenElsewhere held isHeld
          rw [cohorts.places_filter fun other => other == token, unparked, untaken]
          simp only [Cohorts.places, filterMap_returned_filter]
        · intro other
          simp only [finished_answer, BEq.rfl, Bool.and_true]
    · refine ⟨kept.fresh, kept.distinct, still, kept.held, kept.consumed, ?_, ?_⟩
      · intro other back member
        rcases mem_append.mp member with old | new
        · exact kept.handedBack other back old
        · cases mem_singleton.mp new
          exact absurd rfl isFallback
      · -- The one answer to the token stores no operations.
        have unstored : ((cohorts.queue.resolved.filterMap returned).filter
            fun place => !(place.1 == token)) = cohorts.queue.resolved.filterMap returned := by
          apply filter_eq_self.mpr
          intro place member
          obtain ⟨answer, isAnswer, stored⟩ := mem_filterMap.mp member
          simp only [returned] at stored
          split at stored
          · rename_i back
            cases stored
            simp only [Bool.not_eq_true', beq_eq_false_iff_ne]
            intro equal
            have only := inj_on_of_nodup_map kept.filed isAnswer isFiled equal
            rw [only] at back
            exact isFallback back
          · cases stored
        refine perm_of_removed (fun other => false) kept ?_ ?_ ?_
        · rfl
        · simp only [Cohorts.places, filterMap_returned_filter, unstored, Bool.not_false,
            filter_true]
        · intro other
          simp [finished_answer, isFallback]
  · rw [left]
    have isPlace : parked.place ∈ cohorts.places :=
      mem_append_left _ (mem_append_left _ (mem_map_of_mem isParked))
    obtain ⟨isOffered, -⟩ := kept.place_offered isPlace
    refine ⟨kept.fresh, kept.distinct, kept.filed, kept.held, kept.consumed, ?_, ?_⟩
    · intro other back member
      rcases mem_append.mp member with old | new
      · exact kept.handedBack other back old
      · cases mem_singleton.mp new
        rw [<- same]
        exact isOffered
    · refine perm_of_removed (fun other => other == token) kept ?_ ?_ ?_
      · rfl
      · have untaken : (cohorts.taken.filter fun held => !(held.token == token)) = cohorts.taken :=
          filter_eq_self.mpr fun held isHeld => by
            simpa [<- same] using (parkedApart parked isParked held isHeld).symm
        have unstored : ((cohorts.queue.resolved.filterMap returned).filter
            fun place => !(place.1 == token)) = cohorts.queue.resolved.filterMap returned :=
          filter_eq_self.mpr fun place isStored => by
            simpa [<- same] using ((returnedApart place isStored).1 parked isParked).symm
        rw [cohorts.places_filter fun other => other == token, untaken, unstored]
        simp only [Cohorts.places, eraseP_eq_filter distinct]
      · intro other
        simp only [finished_answer, BEq.rfl, Bool.and_true]

/-! ## One answer for each token -/

/-- Where a token is on its way to its answer. -/
def stages (cohorts : Cohorts) : List Nat :=
  cohorts.queue.parked.map Parked.token ++ cohorts.taken.map Taken.token ++
    cohorts.queue.resolved.map Prod.fst ++ cohorts.answers.map Prod.fst

/-- What guarded calls keep besides: what is in flight is what leaders hold, and each
token is at one stage. -/
structure Single (cohorts : Cohorts) : Prop where
  inFlight : cohorts.queue.inFlight.Perm (cohorts.taken.map Taken.token)
  stages : cohorts.stages.Perm (cohorts.offered.map Prod.fst)

section

variable (single : Single cohorts)

include single

theorem Single.stages_distinct (kept : Conserved cohorts) : cohorts.stages.Nodup :=
  single.stages.nodup_iff.mpr kept.distinct

theorem Single.offer (root : Nat) (ops : PendingOps) : Single (cohorts.call (.offer root ops)) := by
  rcases cohorts.call_offer root ops with refused | accepted
  · rw [refused]
    exact single
  · rw [accepted]
    refine ⟨single.inFlight, ?_⟩
    rw [map_append]
    refine List.Perm.trans ?_ (single.stages.append_right _)
    simp only [Cohorts.stages, map_append, map_cons, map_nil, append_assoc]
    apply List.Perm.append_left
    refine perm_append_comm.trans ?_
    simp only [append_assoc]
    exact List.Perm.refl _

theorem Single.take (leader : Nat) : Single (cohorts.call (.take leader)) := by
  rcases cohorts.call_take leader with nothing | ⟨cohortCount, memberCount, taken⟩
  · rw [nothing]
    exact single
  · rw [taken]
    constructor
    · simp only [map_append, map_map]
      exact single.inFlight.append_right _
    · refine List.Perm.trans ?_ single.stages
      simp only [Cohorts.stages, map_nil, nil_append, map_append, map_map]
      apply List.Perm.append_right
      apply List.Perm.append_right
      exact perm_append_comm

theorem Single.answered (kept : Conserved cohorts) {held : Taken} (isHeld : held ∈ cohorts.taken)
    (same : held.token = answer.1) :
    Single (cohorts.answered answer) := by
  have distinct := single.stages_distinct kept
  obtain ⟨⟨-, takenDistinct⟩, -, -⟩ := kept.apart
  have unfiled : cohorts.queue.resolved.filter (·.1 != answer.1) = cohorts.queue.resolved := by
    apply filter_eq_self.mpr
    intro old isOld
    simp only [bne_iff_ne]
    intro equal
    obtain ⟨front, -, -⟩ := nodup_append.mp distinct
    obtain ⟨-, -, across⟩ := nodup_append.mp front
    exact across _ (mem_append_right _ (mem_map_of_mem isHeld)) _
      (mem_map_of_mem isOld) (same.trans equal.symm)
  have taken := perm_cons_filter Taken.token takenDistinct isHeld
  rw [same] at taken
  constructor
  · have flying := single.inFlight.filter (· != answer.1)
    rw [filter_map] at flying
    exact flying
  · refine List.Perm.trans ?_ single.stages
    simp only [Cohorts.stages, Cohorts.answered, AbsorbQueue.resolveOne, AbsorbQueue.file, unfiled,
      map_append, map_cons, map_nil]
    apply List.Perm.append_right
    refine List.Perm.trans ?_ (((taken.map Taken.token).append_left _).append_right _)
    rw [map_cons, same, <- append_assoc]
    refine (perm_append_singleton _ _).trans ?_
    exact (perm_middle.append_right _).symm

theorem Single.resolve (kept : Conserved cohorts) (answers : cohorts.Answers leader results) :
    Single (results.foldl Cohorts.answered cohorts) := by
  induction results generalizing cohorts with
  | nil => exact single
  | cons answer results ih =>
    obtain ⟨held, isHeld, -, same, intact⟩ := answers.2 answer (by simp)
    exact ih (single.answered kept isHeld same) (kept.answered isHeld same intact) answers.tail

end

theorem foldl_failed_tokens (tokens : List Nat) (filed : List Answer)
    (distinct : (filed.map Prod.fst ++ tokens).Nodup) :
    (tokens.foldl (fun filed token => filed.filter (·.1 != token) ++
        [(token, AbsorbResult.failed reason, (∅ : PendingOps))]) filed).map Prod.fst =
      filed.map Prod.fst ++ tokens := by
  induction tokens generalizing filed with
  | nil => simp
  | cons token tokens ih =>
    have unfiled : filed.filter (·.1 != token) = filed := by
      apply filter_eq_self.mpr
      intro old isOld
      simp only [bne_iff_ne]
      exact (nodup_append.mp distinct).2.2 _ (mem_map_of_mem isOld) _ (by simp)
    rw [foldl_cons, unfiled, ih]
    · simp
    · simpa using distinct

section

variable (single : Single cohorts) (kept : Conserved cohorts)

include single kept

theorem Single.failInFlight (reason : String) (own : cohorts.InFlightOf leader) :
    Single (cohorts.call (.failInFlight leader reason)) := by
  have distinct := single.stages_distinct kept
  obtain ⟨front, -, -⟩ := nodup_append.mp distinct
  obtain ⟨unanswered, filed, across⟩ := nodup_append.mp front
  obtain ⟨-, takenDistinct, -⟩ := nodup_append.mp unanswered
  -- Everything a leader holds is in flight, so it is all this leader's.
  have none : cohorts.taken.filter (·.leader != leader) = [] := by
    rw [filter_eq_nil_iff]
    intro held isHeld
    have isLeader := own held isHeld (single.inFlight.mem_iff.mpr (mem_map_of_mem isHeld))
    simpa using isLeader
  have tokens := foldl_failed_tokens reason cohorts.queue.inFlight cohorts.queue.resolved <| by
    rw [nodup_append]
    refine ⟨filed, single.inFlight.nodup_iff.mpr takenDistinct, ?_⟩
    intro one isFiled other flying
    exact (across other (mem_append_right _ (single.inFlight.mem_iff.mp flying)) one isFiled).symm
  simp only [call, failInFlight_eq]
  constructor
  · rw [none]
    exact List.Perm.refl _
  · refine List.Perm.trans ?_ single.stages
    simp only [Cohorts.stages, none, tokens, map_nil, append_nil]
    apply List.Perm.append_right
    rw [append_assoc]
    apply List.Perm.append_left
    exact perm_append_comm.trans (single.inFlight.append_right _)

theorem Single.wait (token : Nat) (ops : PendingOps) : Single (cohorts.call (.wait token ops)) := by
  obtain ⟨⟨parkedDistinct, -⟩, -, -⟩ := kept.apart
  rcases cohorts.call_wait token ops with nothing | ⟨result, given, isFiled, answered⟩ |
    ⟨parked, isParked, same, left⟩
  · rw [nothing]
    exact single
  · rw [answered]
    refine ⟨single.inFlight, List.Perm.trans ?_ single.stages⟩
    have filed := (perm_cons_filter Prod.fst kept.filed isFiled).map Prod.fst
    simp only [Cohorts.stages, map_append, map_cons, map_nil]
    refine List.Perm.trans ?_ ((filed.append_left _).append_right _)
    rw [<- append_assoc]
    refine (perm_append_singleton _ _).trans ?_
    exact (perm_middle.append_right _).symm
  · rw [left]
    refine ⟨single.inFlight, List.Perm.trans ?_ single.stages⟩
    have remaining := (perm_cons_filter Parked.token parkedDistinct isParked).map Parked.token
    rw [same] at remaining
    simp only [Cohorts.stages, map_append, map_cons, map_nil, eraseP_eq_filter parkedDistinct]
    refine List.Perm.trans ?_ (((remaining.append_right _).append_right _).append_right _)
    rw [<- append_assoc, map_cons, same]
    exact perm_append_singleton _ _

end

/-! ## Every sequence of calls -/

theorem Conserved.step {guarded : Prop} (kept : Conserved cohorts) {call : AbsorbCall}
    (allowed : cohorts.Allowed guarded call) : Conserved (cohorts.call call) := by
  cases call with
  | gateAcquired => exact { kept with }
  | gateReleased => exact { kept with }
  | offer root ops => exact kept.offer root ops
  | take leader => exact kept.take leader
  | resolve leader results => exact kept.resolve allowed
  | failInFlight leader reason => exact kept.failInFlight leader reason
  | wait token ops => exact kept.wait token ops

theorem Single.step {guarded : Prop} (holds : guarded) (single : Single cohorts)
    (kept : Conserved cohorts) {call : AbsorbCall} (allowed : cohorts.Allowed guarded call) :
    Single (cohorts.call call) := by
  cases call with
  | gateAcquired => exact { single with }
  | gateReleased => exact { single with }
  | offer root ops => exact single.offer root ops
  | take leader => exact single.take leader
  | resolve leader results => exact single.resolve kept allowed
  | failInFlight leader reason => exact single.failInFlight kept reason (allowed holds)
  | wait token ops => exact single.wait kept token ops

end Cohorts

variable {cohorts : Cohorts}

variable {guarded : Prop} {calls : List AbsorbCall}

theorem conserved_of_runs (run : (absorbing guarded).Runs calls cohorts) :
    cohorts.Conserved ∧ (guarded -> cohorts.Single) := by
  apply run.invariant fun _ cohorts => cohorts.Conserved ∧ (guarded -> cohorts.Single)
  · rintro _ ⟨enabled, rfl⟩
    refine ⟨⟨?_, ?_, ?_, ?_, ?_, ?_, ?_⟩, fun _ => ⟨?_, ?_⟩⟩ <;>
      simp [Cohorts.places, Cohorts.stages]
  · rintro _ cohorts call _ ⟨kept, single⟩ ⟨allowed, rfl⟩
    exact ⟨kept.step allowed, fun holds => (single holds).step holds kept allowed⟩

/-- The places that hold the operations of one token. -/
def Cohorts.holding (cohorts : Cohorts) (token : Nat) : List (Nat × PendingOps) :=
  cohorts.places.filter (·.1 == token)

/-- **Absorption.** In every sequence of calls the operations of an offered transaction
are in exactly one place until it is over and in none after; a `Fallback` gives back
what was offered, and never what a leader still holds. No token is answered twice when
`fail_in_flight` is only called by a leader that took everything in flight. -/
theorem parked_answered_once {guarded : Prop} {calls : List AbsorbCall} {cohorts : Cohorts}
    (run : (absorbing guarded).Runs calls cohorts) :
    (∀ token ops, (token, ops) ∈ cohorts.offered ->
      cohorts.holding token = if cohorts.finished token then [] else [(token, ops)]) ∧
    (∀ token ops, (token, .fallback, ops) ∈ cohorts.answers ->
      (token, ops) ∈ cohorts.offered ∧ ∀ held ∈ cohorts.taken, held.token ≠ token) ∧
    (guarded -> (cohorts.answers.map Prod.fst).Nodup) := by
  obtain ⟨kept, single⟩ := conserved_of_runs run
  refine ⟨?_, ?_, ?_⟩
  · intro token ops isOffered
    split
    · rename_i done
      rw [Cohorts.holding, filter_eq_nil_iff]
      intro place isPlace same
      have running := (kept.place_offered isPlace).2
      rw [show place.1 = token by simpa using same, done] at running
      cases running
    · rename_i running
      have isPlace : (token, ops) ∈ cohorts.places :=
        kept.places.mem_iff.mpr (mem_filter.mpr ⟨isOffered, by simpa using running⟩)
      exact Cohorts.filter_eq_singleton Prod.fst kept.tokens_distinct isPlace
  · intro token ops back
    refine ⟨kept.handedBack token ops back, ?_⟩
    intro held isHeld same
    have isPlace : held.place ∈ cohorts.places :=
      mem_append_left _ (mem_append_right _ (mem_map_of_mem isHeld))
    have running : cohorts.finished held.token = false := (kept.place_offered isPlace).2
    have done : cohorts.finished token = true := by
      simp only [Cohorts.finished, Bool.or_eq_true, any_eq_true]
      exact .inr ⟨_, back, by simp⟩
    rw [same, done] at running
    cases running
  · intro holds
    have distinct := (single holds).stages_distinct kept
    exact (nodup_append.mp distinct).2.1

/-! ## Two leaders -/

theorem runs_absorb (run : (absorbing guarded).Runs calls cohorts) (call : AbsorbCall)
    (allowed : cohorts.Allowed guarded call) :
    (absorbing guarded).Runs (calls ++ [call]) (cohorts.call call) := by
  obtain ⟨start, initial, steps⟩ := run
  exact ⟨start, initial, .step steps ⟨allowed, rfl⟩⟩

theorem runs_absorb_nil (guarded : Prop) :
    (absorbing guarded).Runs [] { queue := { enabled := true } } :=
  ⟨_, ⟨true, rfl⟩, .refl⟩

/-- Two leaders hold a transaction each; one commits and the other fails after it. Each of
the two writers is told so once. -/
theorem two_leaders_answer_once : ∃ cohorts,
    (absorbing True).Runs [.offer 0 (insert ([1], none) ∅), .take 1,
      .offer 0 (insert ([2], some [3]) ∅), .take 2, .resolve 1 [(1, .committed 1 2 1 none, ∅)],
      .failInFlight 2 "failed", .wait 1 ∅, .wait 2 ∅] cohorts ∧
    cohorts.answers = [(1, .committed 1 2 1 none, ∅), (2, .failed "failed", ∅)] ∧
    (cohorts.answers.map Prod.fst).Nodup := by
  have offered := runs_absorb (runs_absorb_nil True) (.offer 0 (insert ([1], none) ∅)) trivial
  have taken := runs_absorb offered (.take 1) trivial
  have both := runs_absorb (runs_absorb taken (.offer 0 (insert ([2], some [3]) ∅)) trivial)
    (.take 2) trivial
  have resolved := runs_absorb both (.resolve 1 [(1, .committed 1 2 1 none, ∅)])
    ⟨by decide, fun answer member => by
      cases mem_singleton.mp member
      exact ⟨_, mem_cons_self, rfl, rfl, by simp⟩⟩
  have failed := runs_absorb resolved (.failInFlight 2 "failed") fun _ held isHeld _ => by
    obtain rfl := mem_singleton.mp isHeld
    rfl
  have waited := runs_absorb (runs_absorb failed (.wait 1 ∅) trivial) (.wait 2 ∅) trivial
  exact ⟨_, waited, rfl, (parked_answered_once waited).2.2 trivial⟩

/-- A leader fails while another's cohort is in flight. The other's member is told that
its commit failed, and then that it committed. -/
theorem failed_member_committed : ∃ cohorts,
    (absorbing False).Runs [.offer 0 ∅, .take 1, .failInFlight 2 "failed", .wait 1 ∅,
      .resolve 1 [(1, .committed 1 2 1 none, ∅)], .wait 1 ∅] cohorts ∧
    cohorts.answers.map (fun answer => (answer.1, answer.2.1)) =
      [(1, .failed "failed"), (1, .committed 1 2 1 none)] := by
  have offered := runs_absorb (runs_absorb_nil False) (.offer 0 ∅) trivial
  have taken := runs_absorb offered (.take 1) trivial
  have failed := runs_absorb taken (.failInFlight 2 "failed") False.elim
  have told := runs_absorb failed (.wait 1 ∅) trivial
  have resolved := runs_absorb told (.resolve 1 [(1, .committed 1 2 1 none, ∅)])
    ⟨by decide, fun answer member => by
      cases mem_singleton.mp member
      exact ⟨⟨1, 1, 0, ∅⟩, mem_singleton.mpr rfl, rfl, rfl, by simp⟩⟩
  have waited := runs_absorb resolved (.wait 1 ∅) trivial
  exact ⟨_, waited, rfl⟩

end InlaySql.Btree
