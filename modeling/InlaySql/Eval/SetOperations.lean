import InlaySql.Eval.Arrivals
import InlaySql.Lib.Closure
import InlaySql.Planner.Body

/-!
# Set operations and recursion

The rows of a compound, deduplicated by one sort and one pass with a survivor for each
operator, and the loop of a recursive query, which feeds back only what the last step
added. A step is a function of the frontier; the interrupt is asked once a step.
-/

namespace InlaySql.Eval

open List Lib Sql

def duplicateKeepMask (rows : List (List Value)) (collations : List Collation)
    (keep : Occurrence) : List Bool :=
  keepMask keep (fun left right => compareProjections left right collations) rows

def combineSetOperation (op : Planner.SetOp) (left right : List (List Value))
    (collations : List Collation) : List (List Value) :=
  match op with
  | .unionAll => left ++ right
  | .union =>
    let both := left ++ right
    retain both (duplicateKeepMask both collations .last)
  | .intersect | .except =>
    let deduped := retain left (duplicateKeepMask left collations .first)
    let rightSorted := sortBy (fun a b => compareProjections a b collations) right
    let matchesRight row :=
      binarySearchBy (fun probe => compareProjections probe row collations) rightSorted
    deduped.filter fun row => matchesRight row == (op == .intersect)

section Recursion

variable (check : Nat -> Except Error Unit)
  (term : List (List Value) -> Except Error (List (List Value)))
  (all : Bool) (collations : List Collation) (cap : Option Nat)

/-- The rows a step adds to those there are. -/
def addedRows (allRows next : List (List Value)) : List (List Value) :=
  if all then next
  else
    let rest := next.filter fun row =>
      !allRows.any fun seen => compareProjections seen row collations == .eq
    retain rest (duplicateKeepMask rest collations .first)

/-- The loop of `run_recursive`, for so many turns. -/
def repeatStep : Nat -> Nat -> List (List Value) -> List (List Value) ->
    Option (Except Error (List (List Value)))
  | 0, _, _, _ => none
  | turns + 1, step, allRows, frontier =>
    if frontier.isEmpty then some (.ok allRows)
    else
      match check step with
      | .error stopped => some (.error stopped)
      | .ok () =>
        if cap.any (· ≤ allRows.length) then some (.ok allRows)
        else
          match term frontier with
          | .error error => some (.error error)
          | .ok next =>
            let next := addedRows all collations allRows next
            repeatStep turns (step + 1) (allRows ++ next) next

/-- `run_recursive`; nothing when the turns run out. -/
def runRecursive (seed : Except Error (List (List Value))) (turns : Nat) :
    Option (Except Error (List (List Value))) :=
  match seed with
  | .error error => some (.error error)
  | .ok seed =>
    let allRows := if all then seed else retain seed (duplicateKeepMask seed collations .first)
    (repeatStep check term all collations cap turns 0 allRows allRows).map fun result =>
      result.map fun rows => cap.elim rows rows.take

end Recursion

/-- A step that takes the rows of the frontier one at a time. -/
def OneAtATime (term : List (List Value) -> Except Error (List (List Value)))
    (makes : List Value -> List Value -> Prop) : Prop :=
  ∀ frontier next, term frontier = .ok next ->
    ∀ row, row ∈ next ↔ ∃ earlier ∈ frontier, makes earlier row

/-- A recursive query whose rows are of the domain and whose step takes them one at a time. -/
structure Stepwise (domain : Set (List Value))
    (term : List (List Value) -> Except Error (List (List Value)))
    (seed : List (List Value)) (makes : List Value -> List Value -> Prop) : Prop where
  single : OneAtATime term makes
  seeds : ∀ row ∈ seed, row ∈ domain
  rows : ∀ row ∈ domain, ∀ next, makes row next -> next ∈ domain

/-- Set operations and recursion mean what they say on rows of values of the domain. -/
structure SetOperationsHold (domain : Set Value) : Prop where
  /-- Rows are equal column by column, and `NULL` equals `NULL`. -/
  columnwise : ∀ collations width, ∀ left ∈ KeysWithin domain width,
    ∀ right ∈ KeysWithin domain width, (compareProjections left right collations = .eq ↔
      ∀ position first second, left[position]? = some first -> right[position]? = some second ->
        memCmp first second (Collation.atPosition collations position) = .eq)
  /-- `UNION ALL` is concatenation. -/
  unionAll : ∀ left right collations,
    combineSetOperation .unionAll left right collations = left ++ right
  /-- `UNION` keeps the rows of both arms that no later row equals. -/
  union : ∀ collations width left right, (∀ row ∈ left ++ right, row ∈ KeysWithin domain width) ->
    combineSetOperation .union left right collations =
      lastOfEach (fun a b => compareProjections a b collations) (left ++ right)
  /-- That is one row of each class. -/
  unionClasses : ∀ collations width left right,
    (∀ row ∈ left ++ right, row ∈ KeysWithin domain width) -> ∀ row ∈ left ++ right,
      ∃! kept, kept ∈ combineSetOperation .union left right collations ∧
        compareProjections kept row collations = .eq
  /-- `INTERSECT` keeps the first of each class of the left arm that occurs on the right. -/
  intersect : ∀ collations width left right,
    (∀ row ∈ left ++ right, row ∈ KeysWithin domain width) ->
    combineSetOperation .intersect left right collations =
      (firstOfEach (fun a b => compareProjections a b collations) left).filter fun row =>
        right.any fun other => compareProjections other row collations == .eq
  /-- `EXCEPT` keeps the first of each class of the left arm that does not. -/
  except : ∀ collations width left right,
    (∀ row ∈ left ++ right, row ∈ KeysWithin domain width) ->
    combineSetOperation .except left right collations =
      (firstOfEach (fun a b => compareProjections a b collations) left).filter fun row =>
        !right.any fun other => compareProjections other row collations == .eq
  /-- A recursive `UNION` that ends has closed its seed under the step, each class once. -/
  recursive : ∀ collations width check term seed makes turns rows,
    Stepwise (KeysWithin domain width) term seed makes ->
    runRecursive check term false collations none (.ok seed) turns = some (.ok rows) ->
    LeastClosed (fun a b => compareProjections a b collations) seed makes rows
  /-- Where equal rows make equal rows, its classes are those of the least closed set. -/
  least : ∀ collations width check term seed makes turns rows,
    Stepwise (KeysWithin domain width) term seed makes ->
    (∀ left ∈ KeysWithin domain width, ∀ right ∈ KeysWithin domain width,
      compareProjections left right collations = .eq -> ∀ next, makes right next ->
        ∃ other, makes left other ∧ compareProjections other next collations = .eq) ->
    runRecursive check term false collations none (.ok seed) turns = some (.ok rows) ->
    ∀ row ∈ KeysWithin domain width,
      ((∃ kept ∈ rows, compareProjections kept row collations = .eq) ↔
        ∃ derived, Derived seed makes derived ∧ compareProjections derived row collations = .eq)
  /-- It ends when what the seed leads to falls into finitely many classes. -/
  ends : ∀ collations width check term seed makes cap (classes : List (List Value)),
    Stepwise (KeysWithin domain width) term seed makes ->
    (∀ row ∈ classes, row ∈ KeysWithin domain width) ->
    (∀ row, Derived seed makes row ->
      ∃ known ∈ classes, compareProjections known row collations = .eq) ->
    ∃ turns, (runRecursive check term false collations cap (.ok seed) turns).isSome
  /-- A row cap returns a prefix of what any higher cap returns, and of what none does. -/
  capped : ∀ collations check term all seed cap higher turns more few many,
    higher.all (cap ≤ ·) = true ->
    runRecursive check term all collations (some cap) seed turns = some (.ok few) ->
    runRecursive check term all collations higher seed more = some (.ok many) ->
    few = many.take cap

/-! ## The loop -/

section Loop

variable {domain : Set Value} {collations : List Collation} {width : Nat}
  {check : Nat -> Except Error Unit} {term : List (List Value) -> Except Error (List (List Value))}
  {seed : List (List Value)} {makes : List Value -> List Value -> Prop}

/-- The ways a turn of the loop can go. -/
inductive Turn (check : Nat -> Except Error Unit)
    (term : List (List Value) -> Except Error (List (List Value))) (all : Bool)
    (collations : List Collation) (cap : Option Nat) (turns step : Nat)
    (allRows frontier : List (List Value)) : Option (Except Error (List (List Value))) -> Prop
  | ended (empty : frontier = []) :
      Turn check term all collations cap turns step allRows frontier (some (.ok allRows))
  | interrupted (stopped : Error) (nonempty : frontier ≠ []) (checked : check step = .error stopped) :
      Turn check term all collations cap turns step allRows frontier (some (.error stopped))
  | full (nonempty : frontier ≠ []) (checked : check step = .ok ())
      (reached : cap.any (· ≤ allRows.length) = true) :
      Turn check term all collations cap turns step allRows frontier (some (.ok allRows))
  | failed (error : Error) (nonempty : frontier ≠ []) (checked : check step = .ok ())
      (below : cap.any (· ≤ allRows.length) = false) (run : term frontier = .error error) :
      Turn check term all collations cap turns step allRows frontier (some (.error error))
  | stepped (next : List (List Value)) (nonempty : frontier ≠ []) (checked : check step = .ok ())
      (below : cap.any (· ≤ allRows.length) = false) (run : term frontier = .ok next) :
      Turn check term all collations cap turns step allRows frontier
        (repeatStep check term all collations cap turns (step + 1)
          (allRows ++ addedRows all collations allRows next)
          (addedRows all collations allRows next))

theorem repeatStep_turn (check : Nat -> Except Error Unit)
    (term : List (List Value) → Except Error (List (List Value))) (collations : List Collation) (all : Bool) (cap : Option Nat) (turns step : Nat)
    (allRows frontier : List (List Value)) :
    Turn check term all collations cap turns step allRows frontier
      (repeatStep check term all collations cap (turns + 1) step allRows frontier) := by
  rw [repeatStep]
  cases frontier with
  | nil => exact .ended rfl
  | cons row rest =>
    have nonempty : row :: rest ≠ [] := cons_ne_nil _ _
    cases checked : check step with
    | error stopped => exact .interrupted stopped nonempty checked
    | ok granted =>
      by_cases reached : cap.any (· ≤ allRows.length) = true
      · rw [if_pos reached]
        exact .full nonempty checked reached
      · rw [if_neg reached]
        have below := Bool.eq_false_iff.mpr reached
        cases run : term (row :: rest) with
        | error error => exact .failed error nonempty checked below run
        | ok next => exact .stepped next nonempty checked below run

variable {all : Bool} {turns : Nat} {allRows frontier rows : List (List Value)}
  {higher : Option Nat} {few many : List (List Value)}

theorem prefix_of_repeatStep {cap : Option Nat} {step : Nat}
    (run : repeatStep check term all collations cap turns step allRows frontier = some (.ok rows)) :
    allRows <+: rows := by
  induction turns generalizing step allRows frontier with
  | zero => cases run
  | succ turns ih =>
    have turn := repeatStep_turn check term collations all cap turns step allRows frontier
    generalize repeatStep check term all collations cap (turns + 1) step allRows frontier = result
      at run turn
    cases turn with
    | ended empty => cases run; exact prefix_rfl
    | full nonempty checked reached => cases run; exact prefix_rfl
    | interrupted stopped nonempty checked => cases run
    | failed error nonempty checked below ran => cases run
    | stepped next nonempty checked below ran => exact (prefix_append _ _).trans (ih run)

theorem repeatStep_capped {cap : Nat} (above : higher.all (cap ≤ ·) = true) {more step : Nat}
    (run : repeatStep check term all collations (some cap) turns step allRows frontier =
      some (.ok few))
    (longer : repeatStep check term all collations higher more step allRows frontier =
      some (.ok many)) : few.take cap = many.take cap := by
  induction turns generalizing more step allRows frontier with
  | zero => cases run
  | succ turns ih =>
    cases more with
    | zero => cases longer
    | succ more =>
      have turn := repeatStep_turn check term collations all (some cap) turns step allRows frontier
      have turn' := repeatStep_turn check term collations all higher more step allRows frontier
      have extends' := prefix_of_repeatStep longer
      generalize repeatStep check term all collations (some cap) (turns + 1) step allRows frontier
        = result at run turn
      generalize repeatStep check term all collations higher (more + 1) step allRows frontier
        = result' at longer turn'
      cases turn with
      | interrupted stopped nonempty checked => cases run
      | failed error nonempty checked below ran => cases run
      | ended empty =>
        cases run
        cases turn' with
        | ended empty' => cases longer; rfl
        | interrupted stopped nonempty checked => exact absurd empty nonempty
        | full nonempty checked reached => exact absurd empty nonempty
        | failed error nonempty checked below ran => exact absurd empty nonempty
        | stepped next nonempty checked below ran => exact absurd empty nonempty
      | full nonempty checked reached =>
        cases run
        obtain ⟨rest, rfl⟩ := extends'
        rw [take_append_of_le_length (by simpa using reached)]
      | stepped next nonempty checked below ran =>
        have small : allRows.length < cap := by simpa using below
        cases turn' with
        | ended empty => exact absurd empty nonempty
        | interrupted stopped nonempty checked' => cases longer
        | failed error nonempty checked' below' ran' => cases longer
        | full nonempty checked' reached =>
          cases higher with
          | none => cases reached
          | some higher =>
            simp only [Option.all_some, Option.any_some, decide_eq_true_eq] at above reached
            omega
        | stepped next' nonempty checked' below' ran' =>
          rw [ran] at ran'
          cases ran'
          exact ih run longer

section Closing

variable (order : PreorderOn (fun left right => compareProjections left right collations)
  (KeysWithin domain width))
include order

variable {next done frontier : List (List Value)}

theorem addedRows_eq (within : ∀ row ∈ next, row ∈ KeysWithin domain width) :
    addedRows false collations allRows next =
      admitted (fun left right => compareProjections left right collations) allRows next := by
  exact retain_first order fun row member => within row (mem_of_mem_filter member)

variable (stepwise : Stepwise (KeysWithin domain width) term seed makes)
include stepwise

theorem explored_step
    (explored : Explored (fun left right => compareProjections left right collations)
      (KeysWithin domain width) seed makes done frontier) (ran : term frontier = .ok next) :
    Explored (fun left right => compareProjections left right collations)
      (KeysWithin domain width) seed makes (done ++ frontier)
      (addedRows false collations (done ++ frontier) next) := by
  have made := stepwise.single frontier next ran
  have within : ∀ row ∈ next, row ∈ KeysWithin domain width := by
    intro row member
    obtain ⟨earlier, current, isMade⟩ := (made row).mp member
    exact stepwise.rows earlier (explored.inside earlier (mem_append_right _ current)) row isMade
  rw [addedRows_eq order within]
  exact explored.advance order within made

theorem repeatStep_closes {step : Nat}
    (explored : Explored (fun left right => compareProjections left right collations)
      (KeysWithin domain width) seed makes done frontier)
    (run : repeatStep check term false collations none turns step (done ++ frontier) frontier =
      some (.ok rows)) :
    LeastClosed (fun left right => compareProjections left right collations) seed makes rows := by
  induction turns generalizing step done frontier with
  | zero => cases run
  | succ turns ih =>
    have turn := repeatStep_turn check term collations false none turns step (done ++ frontier)
      frontier
    generalize repeatStep check term false collations none (turns + 1) step (done ++ frontier)
      frontier = result at run turn
    cases turn with
    | ended empty =>
      cases run
      subst empty
      rw [append_nil]
      exact explored.leastClosed
    | full nonempty checked reached => cases reached
    | interrupted stopped nonempty checked => cases run
    | failed error nonempty checked below ran => cases run
    | stepped next nonempty checked below ran =>
      exact ih (explored_step order stepwise explored ran) run

theorem repeatStep_ends {classes : List (List Value)}
    (within : ∀ row ∈ classes, row ∈ KeysWithin domain width)
    (known : ∀ row, Derived seed makes row ->
      ∃ other ∈ classes, compareProjections other row collations = .eq) {cap : Option Nat}
    {step : Nat}
    (explored : Explored (fun left right => compareProjections left right collations)
      (KeysWithin domain width) seed makes done frontier)
    (enough : classes.length + (if frontier = [] then 1 else 2) ≤
      turns + (done ++ frontier).length) :
    (repeatStep check term false collations cap turns step (done ++ frontier) frontier).isSome := by
  have room := explored.length_le order within known
  induction turns generalizing step done frontier with
  | zero => split at enough <;> omega
  | succ turns ih =>
    have turn := repeatStep_turn check term collations false cap turns step (done ++ frontier)
      frontier
    generalize repeatStep check term false collations cap (turns + 1) step (done ++ frontier)
      frontier = result at turn
    cases turn with
    | ended empty => rfl
    | full nonempty checked reached => rfl
    | interrupted stopped nonempty checked => rfl
    | failed error nonempty checked below ran => rfl
    | stepped next nonempty checked below ran =>
      have further := explored_step order stepwise explored ran
      refine ih further ?_ (further.length_le order within known)
      rw [if_neg nonempty] at enough
      have total : (done ++ frontier ++ addedRows false collations (done ++ frontier) next).length =
          (done ++ frontier).length +
            (addedRows false collations (done ++ frontier) next).length := length_append
      split
      · omega
      · rename_i added
        have grows := length_pos_iff.mpr added
        omega

end Closing

theorem Stepwise.derived_mem {rows : Set (List Value)} (stepwise : Stepwise rows term seed makes)
    {row : List Value} (derived : Derived seed makes row) : row ∈ rows := by
  induction derived with
  | seed member => exact stepwise.seeds _ member
  | made _ made ih => exact stepwise.rows _ ih _ made

theorem runRecursive_closes (order : PreorderOn
      (fun left right => compareProjections left right collations) (KeysWithin domain width))
    (stepwise : Stepwise (KeysWithin domain width) term seed makes)
    (run : runRecursive check term false collations none (.ok seed) turns = some (.ok rows)) :
    LeastClosed (fun left right => compareProjections left right collations) seed makes rows := by
  simp only [runRecursive] at run
  rw [if_neg Bool.false_ne_true, duplicateKeepMask, retain_first order stepwise.seeds,
    Option.map_eq_some_iff] at run
  obtain ⟨result, run, returned⟩ := run
  cases result with
  | error error => cases returned
  | ok found =>
    cases returned
    exact repeatStep_closes order stepwise (Explored.start order stepwise.seeds) run

theorem runRecursive_capped {cap : Nat} (above : higher.all (cap ≤ ·) = true) {more : Nat}
    {seed : Except Error (List (List Value))}
    (run : runRecursive check term all collations (some cap) seed turns = some (.ok few))
    (longer : runRecursive check term all collations higher seed more = some (.ok many)) :
    few = many.take cap := by
  cases seed with
  | error error => cases run
  | ok seed =>
    simp only [runRecursive] at run longer
    rw [Option.map_eq_some_iff] at run longer
    obtain ⟨result, run, returned⟩ := run
    obtain ⟨result', longer, returned'⟩ := longer
    cases result with
    | error error => cases returned
    | ok found =>
      cases result' with
      | error error => cases returned'
      | ok found' =>
        cases returned
        cases returned'
        have same := repeatStep_capped above run longer
        cases higher with
        | none => exact same
        | some higher =>
          have least : min cap higher = cap := by simpa using above
          change found.take cap = (found'.take higher).take cap
          rw [take_take, least]
          exact same

end Loop

/-! ## What they mean -/

section Holds

variable {domain : Set Value}
  (order : ∀ collation, PreorderOn (fun left right => memCmp left right collation) domain)

variable {collations : List Collation}

theorem compareProjections_eq_iff {left right : List Value} (widths : left.length = right.length) :
    compareProjections left right collations = .eq ↔
      ∀ position first second, left[position]? = some first -> right[position]? = some second ->
        memCmp first second (Collation.atPosition collations position) = .eq := by
  have general : ∀ offset, lexFrom (fun position left right =>
        memCmp left right (Collation.atPosition collations position)) offset left right = .eq ↔
      ∀ position first second, left[position]? = some first -> right[position]? = some second ->
        memCmp first second (Collation.atPosition collations (offset + position)) = .eq := by
    induction left generalizing right with
    | nil => simp [lexFrom]
    | cons head rest ih =>
      intro offset
      cases right with
      | nil => cases widths
      | cons other others =>
        rw [lexFrom_cons, Ordering.then_eq_eq, ih (Nat.succ.inj widths)]
        constructor
        · rintro ⟨here, later⟩ position first second isFirst isSecond
          cases position with
          | zero =>
            cases isFirst
            cases isSecond
            exact here
          | succ position =>
            have := later position first second isFirst isSecond
            rwa [Nat.add_right_comm, Nat.add_assoc] at this
        · intro all
          refine ⟨all 0 head other rfl rfl, fun position first second isFirst isSecond => ?_⟩
          have := all (position + 1) first second isFirst isSecond
          rwa [<- Nat.add_assoc, Nat.add_right_comm] at this
  unfold compareProjections
  simpa using general 0

include order

theorem combineSetOperation_filter {width : Nat} {left right : List (List Value)}
    (within : ∀ row ∈ left ++ right, row ∈ KeysWithin domain width) {op : Planner.SetOp}
    (filters : op = .intersect ∨ op = .except) :
    combineSetOperation op left right collations =
      (firstOfEach (fun a b => compareProjections a b collations) left).filter fun row =>
        (right.any fun other => compareProjections other row collations == .eq) ==
          (op == .intersect) := by
  have rows := preorderOn_compareProjections order collations width
  have inLeft : ∀ row ∈ left, row ∈ KeysWithin domain width := fun row member =>
    within row (mem_append_left _ member)
  have inRight : ∀ row ∈ right, row ∈ KeysWithin domain width := fun row member =>
    within row (mem_append_right _ member)
  have unfolded : combineSetOperation op left right collations =
      (retain left (duplicateKeepMask left collations .first)).filter fun row =>
        binarySearchBy (fun probe => compareProjections probe row collations)
          (sortBy (fun a b => compareProjections a b collations) right) == (op == .intersect) := by
    rcases filters with rfl | rfl <;> rfl
  rw [unfolded, duplicateKeepMask, retain_first rows inLeft]
  refine filter_congr fun row member => ?_
  have found := rows.binarySearchBy_sortBy inRight (inLeft row (mem_of_mem_firstOfEach member))
  congr 1
  rw [Bool.eq_iff_iff, found, any_eq_true]
  simp only [beq_iff_eq]

theorem setOperationsHold_of_order : SetOperationsHold domain := by
  have rows (collations : List Collation) (width : Nat) :=
    preorderOn_compareProjections order collations width
  constructor
  · intro collations width left inLeft right inRight
    exact compareProjections_eq_iff (inLeft.1.trans inRight.1.symm)
  · exact fun left right collations => rfl
  · exact fun collations width left right within => retain_last (rows collations width) within
  · intro collations width left right within row member
    have kept := retain_last (rows collations width) within
    have unique := (rows collations width).existsUnique_mem_lastOfEach within member
    rwa [<- kept] at unique
  · intro collations width left right within
    rw [combineSetOperation_filter order within (.inl rfl)]
    refine filter_congr fun row _ => ?_
    cases right.any fun other => compareProjections other row collations == .eq <;> rfl
  · intro collations width left right within
    rw [combineSetOperation_filter order within (.inr rfl)]
    refine filter_congr fun row _ => ?_
    cases right.any fun other => compareProjections other row collations == .eq <;> rfl
  · intro collations width check term seed makes turns result stepwise run
    exact runRecursive_closes (rows collations width) stepwise run
  · intro collations width check term seed makes turns result stepwise congr run row inRow
    have least := runRecursive_closes (rows collations width) stepwise run
    refine least.derived_iff (rows collations width) (fun row derived => ?_) congr row inRow
    exact stepwise.derived_mem derived
  · intro collations width check term seed makes cap classes stepwise within known
    have first := retain_first (rows collations width) stepwise.seeds
    refine ⟨classes.length + 2, ?_⟩
    simp only [runRecursive]
    rw [if_neg Bool.false_ne_true, Option.isSome_map, duplicateKeepMask, first]
    refine repeatStep_ends (rows collations width) stepwise within known
      (Explored.start (rows collations width) stepwise.seeds) ?_
    split <;> omega
  · intro collations check term all seed cap higher turns more few many above run longer
    exact runRecursive_capped above run longer

end Holds

/-- On separated values set operations and recursion mean what they say. -/
theorem setOperationsHold {domain : Set Value} (plain : ∀ value ∈ domain, Plain value)
    (separated : Separated domain) : SetOperationsHold domain :=
  setOperationsHold_of_order fun _ => preorderOn_memCmp separated plain

theorem setOperationsHold_texts :
    SetOperationsHold {value | value = .null ∨ value = .text "a" ∨ value = .integer 1} := by
  refine setOperationsHold ?_ ⟨?_, ?_, ?_, ?_⟩
  · rintro value (rfl | rfl | rfl)
    · trivial
    · trivial
    · exact ⟨by decide, by decide⟩
  · rintro first second real - - (same | same | same) <;> cases same
  all_goals rintro nan - - (same | same | same) <;> cases same

/-- `SELECT hex(x) FROM t WHERE length(x) = 1`, over texts. -/
def hexOfShort (frontier : List (List Value)) : Except Error (List (List Value)) :=
  .ok (frontier.filterMap fun row =>
    match row with
    | [.text text] =>
      if text.length = 1 then
        some [.text (String.ofList ((utf8 text).flatMap fun byte =>
          [Nat.digitChar (byte.toNat / 16), Nat.digitChar (byte.toNat % 16)]))]
      else none
    | _ => none)

/-- Under `NOCASE` only `A` of `A` and `a` is fed back, so the row `a` makes is never made. -/
theorem runRecursive_nocase : runRecursive (fun _ => .ok ()) hexOfShort false [.noCase] none
        (.ok [[.text "A"], [.text "a"]]) 4 = some (.ok [[.text "A"], [.text "41"]]) ∧
      hexOfShort [[.text "a"]] = .ok [[.text "61"]] ∧
      ∀ row ∈ [[Value.text "A"], [Value.text "41"]],
        compareProjections row [.text "61"] [.noCase] ≠ .eq := by
  refine ⟨?_, by decide +kernel, by decide +kernel⟩
  have separated : Separated {value | ∃ word, value = .text word} :=
    ⟨by rintro _ _ _ ⟨_, ⟨⟩⟩, by rintro _ _ _ ⟨_, ⟨⟩⟩, by rintro _ _ _ ⟨_, ⟨⟩⟩, by rintro _ _ _ ⟨_, ⟨⟩⟩⟩
  have order := preorderOn_compareProjections (fun collation => preorderOn_memCmp separated
    (by rintro _ ⟨_, rfl⟩; trivial)) [.noCase] 1
  have inDomain (word : String) : [Value.text word] ∈ KeysWithin {value | ∃ word, value = .text word} 1 :=
    ⟨rfl, fun value member => ⟨word, mem_singleton.mp member⟩⟩
  have seeded : retain [[Value.text "A"], [.text "a"]]
      (duplicateKeepMask [[.text "A"], [.text "a"]] [.noCase] .first) = [[.text "A"]] := by
    rw [duplicateKeepMask, retain_first order (by simp [inDomain])]
    decide +kernel
  have first : addedRows false [.noCase] [[.text "A"]] [[.text "41"]] = [[.text "41"]] := by
    rw [addedRows_eq order (by simp [inDomain])]
    decide +kernel
  have second : addedRows false [.noCase] [[.text "A"], [.text "41"]] [] = [] := by
    rw [addedRows_eq order (by simp)]
    decide +kernel
  have made : hexOfShort [[.text "A"]] = .ok [[.text "41"]] := by decide +kernel
  have ended : hexOfShort [[.text "41"]] = .ok [] := by decide +kernel
  simp [runRecursive, repeatStep, seeded, made, first, ended, second]
  rfl

end InlaySql.Eval
