import InlaySql.Lib.Simulation
import InlaySql.Sql.Dml

/-!
# Rows and their constraints

Expressions, defaults and constraints neither read nor change what is stored. A row that
passed its constraints has no `NULL` where none may be, and under the plain policy it is
the row that was proposed.
-/

namespace InlaySql.Sql

open List Lib
open Stateful

/-- The rows of a `VALUES` list are as wide as its table. -/
def InsertSource.Sized (table : Table) : InsertSource -> Prop
  | .values rows => ∀ cells ∈ rows, cells.length = table.columns.length
  | .select _ _ => True

/-! ## What evaluation leaves alone -/

namespace Engine

/-- Replace what is stored. -/
def putStorage (storage : Storage) (engine : Engine) : Engine := { engine with storage }

section Blindness

variable (host : Host) (params : List Value)

theorem blind_check : Blind putStorage check := by
  intro storage engine
  cases signals : engine.signals with
  | nil => simp [check, putStorage, signals]
  | cons signal rest => cases signal <;> simp [check, putStorage, signals]

theorem blind_evaluate (row : Row) (expr : Expr) : Blind putStorage (evaluate host params row expr) :=
  fun _ _ => rfl

variable (table : Table) (rules : TableRules) (policy : OnConflict)

theorem blind_fitted (ordinal : Nat) (row : Row) (expr : Expr) :
    Blind putStorage (fitted host params table ordinal row expr) := by
  refine (blind_evaluate host params row expr).bind fun value => ?_
  split
  · exact .ofExcept _
  · exact .fail _

theorem blind_fill (ordinal : Nat) (cell : Option Expr) :
    Blind putStorage (fill host params table rules ordinal cell) := by
  unfold fill
  split
  · exact blind_fitted host params _ _ _ _
  · exact .pure _

/-- What `OR REPLACE` puts in the place of a `NULL`: the default, or the `NULL` itself. -/
def replacement (table : Table) (rules : TableRules) (policy : OnConflict) (ordinal : Nat) :
    Method Value :=
  match policy.coversEveryConstraint && policy.action == .replace,
      (rules.defaults[ordinal]?).getD none with
  | true, some expr => fitted host params table ordinal [] expr
  | _, _ => pure .null

theorem applyNotNull_cons (column : Column) (ordinal : Nat) (columns : List (Column × Nat))
    (row : Row) :
    applyNotNull host params table rules policy ((column, ordinal) :: columns) row =
      if !column.notNull || Row.cell row ordinal != .null then
        applyNotNull host params table rules policy columns row
      else (do
        let replaced <- replacement host params table rules policy ordinal
        if replaced != .null then
          applyNotNull host params table rules policy columns (row.set ordinal replaced)
        else if policy.coversEveryConstraint && policy.action == .ignore then return none
        else fail (.constraint s!"NOT NULL constraint failed: {table.name}.{column.name}")) := by
  rw [applyNotNull]
  split
  · rfl
  · unfold replacement
    generalize (policy.coversEveryConstraint && policy.action == .replace) = replaces
    cases replaces <;> cases (rules.defaults[ordinal]?).getD none <;> rfl

theorem blind_applyNotNull (columns : List (Column × Nat)) (row : Row) :
    Blind putStorage (applyNotNull host params table rules policy columns row) := by
  induction columns generalizing row with
  | nil => exact .pure _
  | cons column columns ih =>
    rw [applyNotNull_cons]
    split
    · exact ih row
    · refine Blind.bind ?_ fun replaced => ?_
      · unfold replacement
        split
        · exact blind_fitted host params _ _ _ _
        · exact .pure _
      · split
        · exact ih _
        · split
          · exact .pure _
          · exact .fail _

theorem blind_applyChecks (row : Row) (checks : List (String × Expr)) :
    Blind putStorage (applyChecks host params policy row checks) := by
  induction checks with
  | nil => exact .pure _
  | cons check checks ih =>
    refine (blind_evaluate host params row check.2).bind fun value => ?_
    split
    · exact ih
    · split
      · exact .pure _
      · exact .fail _

theorem blind_applyConstraints (row : Row) :
    Blind putStorage (applyConstraints host params table rules policy row) := by
  refine (blind_applyNotNull host params table rules policy _ row).bind fun kept => ?_
  cases kept with
  | none => exact .pure _
  | some row => exact (blind_applyChecks host params policy row rules.checks).bind fun _ => .pure _

theorem blind_assigned (source : Row) (assignments : List (Nat × Expr)) (start : Row) :
    Blind putStorage (assigned host params table source assignments start) :=
  Blind.foldlM (fun _ (assignment : Nat × Expr) =>
    (blind_fitted host params table assignment.1 source assignment.2).bind fun _ => .pure _) _ _

theorem blind_admitted (filter : Option Expr) (row : Row) :
    Blind putStorage (admitted host params filter row) := by
  cases filter with
  | none => exact .pure _
  | some filter => exact (blind_evaluate host params row filter).bind fun _ => .pure _

theorem blind_returnRow (returning : Option (List SelectItem)) (row : Row) :
    Blind putStorage (returnRow host params returning row) := by
  cases returning with
  | none => exact .pure _
  | some items =>
    refine Blind.bind (Blind.mapM (fun item => ?_) items) fun _ => .pure _
    cases item with
    | column | score => exact .pure _
    | expr expr label => exact blind_evaluate host params row expr

theorem blind_proposedRows (rows : List (List (Option Expr))) :
    Blind putStorage (proposedRows host params table rules (.values rows)) :=
  .mapM (fun _ => .mapM (fun _ => blind_fill host params _ _ _ _) _) _

theorem storage_of_blind {α : Type} {method : Method α} (blind : Blind putStorage method)
    (engine : Engine) : (method engine).2.storage = engine.storage :=
  blind.kept (fun _ => rfl) (fun _ _ => rfl) engine

end Blindness

/-! ## Rows after their constraints -/

theorem cell_set (row : Row) (ordinal other : Nat) (value : Value) :
    Row.cell (row.set ordinal value) other =
      if ordinal = other ∧ ordinal < row.length then value else Row.cell row other := by
  unfold Row.cell
  rw [getElem?_set]
  split
  · rename_i same
    subst same
    by_cases inside : ordinal < row.length
    · simp [inside]
    · simp [inside]
  · rename_i apart
    rw [if_neg (fun both => apart both.1)]

section Constraints

variable {host : Host} {params : List Value} {table : Table} {rules : TableRules}
  {policy : OnConflict} {row kept : Row} {engine after : Engine}

variable {columns : List (Column × Nat)} {answer : Option Row}

theorem applyNotNull_some (width : ∀ column ∈ columns, column.2 < row.length)
    (ran : applyNotNull host params table rules policy columns row engine =
      (.ok (some kept), after)) :
    kept.length = row.length ∧ (∀ ordinal, row.cell ordinal ≠ .null -> kept.cell ordinal ≠ .null) ∧
      ∀ column ∈ columns, column.1.notNull = true -> kept.cell column.2 ≠ .null := by
  induction columns generalizing row engine with
  | nil =>
    cases ran
    exact ⟨rfl, fun _ notNull => notNull, nofun⟩
  | cons column columns ih =>
    rw [forall_mem_cons] at width
    rw [applyNotNull_cons] at ran
    split at ran
    · rename_i passes
      obtain ⟨same, cells, rest⟩ := ih width.2 ran
      refine ⟨same, cells, forall_mem_cons.mpr ⟨fun notNull => cells _ ?_, rest⟩⟩
      simpa [notNull] using passes
    · obtain ⟨replaced, between, -, ran⟩ := bind_eq_ok ran
      split at ran
      · rename_i filled
        rw [bne_iff_ne] at filled
        obtain ⟨same, cells, rest⟩ := ih (fun other member => by
          rw [length_set]
          exact width.2 other member) ran
        have here : Row.cell (row.set column.2 replaced) column.2 ≠ .null := by
          rw [cell_set, if_pos ⟨rfl, width.1⟩]
          exact filled
        refine ⟨same.trans (length_set ..), fun ordinal notNull => cells ordinal ?_,
          forall_mem_cons.mpr ⟨fun _ => cells _ here, rest⟩⟩
        rw [cell_set]
        split
        · exact filled
        · exact notNull
      · split at ran <;> cases ran

theorem applyNotNull_abort
    (ran : applyNotNull host params table rules .abort columns row engine = (.ok answer, after)) :
    answer = some row := by
  induction columns generalizing engine with
  | nil =>
    cases ran
    rfl
  | cons column columns ih =>
    rw [applyNotNull_cons] at ran
    split at ran
    · exact ih ran
    · cases ran

theorem applyChecks_abort {checks : List (String × Expr)} {passes : Bool}
    (ran : applyChecks host params .abort row checks engine = (.ok passes, after)) :
    passes = true := by
  induction checks generalizing engine with
  | nil =>
    cases ran
    rfl
  | cons check checks ih =>
    obtain ⟨value, between, -, ran⟩ := bind_eq_ok ran
    split at ran
    · exact ih ran
    · cases ran

theorem applyConstraints_some (width : row.length = table.columns.length)
    (ran : applyConstraints host params table rules policy row engine = (.ok (some kept), after))
    {ordinal : Nat} {column : Column} (isColumn : table.columns[ordinal]? = some column)
    (notNull : column.notNull = true) : kept.cell ordinal ≠ .null := by
  obtain ⟨answer, between, first, ran⟩ := bind_eq_ok ran
  cases answer with
  | none => cases ran
  | some passed =>
    obtain ⟨passes, last, -, ran⟩ := bind_eq_ok ran
    have same : kept = passed := by
      cases passes <;> cases ran
      rfl
    subst same
    refine (applyNotNull_some (fun other member => ?_) first).2.2 (column, ordinal) ?_ notNull
    · have inside := snd_lt_of_mem_zipIdx member
      omega
    · exact mk_mem_zipIdx_iff_getElem?.mpr isColumn

theorem applyConstraints_abort
    (ran : applyConstraints host params table rules .abort row engine = (.ok answer, after)) :
    answer = some row := by
  obtain ⟨passed, between, first, ran⟩ := bind_eq_ok ran
  obtain rfl := applyNotNull_abort first
  obtain ⟨passes, last, second, ran⟩ := bind_eq_ok ran
  obtain rfl := applyChecks_abort second
  cases ran
  rfl

theorem length_assigned {source : Row} {assignments : List (Nat × Expr)} {start next : Row}
    (ran : assigned host params table source assignments start engine = (.ok next, after)) :
    next.length = start.length := by
  unfold assigned at ran
  induction assignments generalizing start engine with
  | nil =>
    cases ran
    rfl
  | cons assignment assignments ih =>
    rw [foldlM_cons] at ran
    obtain ⟨between, middle, one, ran⟩ := bind_eq_ok ran
    obtain ⟨value, last, -, one⟩ := bind_eq_ok one
    cases one
    simpa using ih ran

theorem length_resized (table : Table) (row : Row) :
    (resized table row).length = table.columns.length := by
  unfold resized
  rw [length_take, length_append, length_replicate]
  omega

theorem length_proposedRows {source : InsertSource} {proposed : List Row}
    (sized : source.Sized table)
    (ran : proposedRows host params table rules source engine = (.ok proposed, after)) :
    ∀ row ∈ proposed, row.length = table.columns.length := by
  cases source with
  | values rows =>
    refine forall_mapM (fun cells member state row next one => ?_) ran
    rw [length_mapM one, length_zipIdx, sized cells member]
  | select query targets =>
    obtain ⟨result, between, -, ran⟩ := bind_eq_ok ran
    refine forall_mapM (fun values member state row next one => ?_) ran
    rw [length_mapM one, length_zipIdx]

end Constraints

end Engine

end InlaySql.Sql
