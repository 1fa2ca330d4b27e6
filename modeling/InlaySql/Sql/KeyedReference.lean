import InlaySql.Sql.KeyedOrder
import InlaySql.Sql.KeyedRows
import InlaySql.Sql.RowConstraints

/-!
# A table that is a map

What a `WITHOUT ROWID` table is for: a list of rows in key order, one for each slot, where
two rows share a slot when the evaluator's `=` calls their key cells equal. The reference
statements do to that list what `INSERT`, `UPDATE` and `DELETE` say, and leave the rest,
constraints, expressions and what is returned, to the engine.
-/

namespace InlaySql.Sql

open Lib
open Stateful

/-- A reference statement: the engine beside the rows of the table. -/
abbrev Reference (α : Type) := Stateful (Engine × List Row) Error α

/-- A row with the same key goes. -/
def vacate (numerals : Numerals) (key : List Nat × List Collation) (row : Row) (rows : List Row) :
    List Row := rows.filter fun other => !sameKey numerals key row other

namespace Reference

variable (host : Host) (params : List Value)

/-- Change the rows of the table. -/
def rewrite (update : List Row -> List Row) : Reference Unit :=
  change fun state => (state.1, update state.2)

/-- Put a row in its slot and return it. -/
def storeSlot (returning : Option (List SelectItem)) (table : Table)
    (key : List Nat × List Collation) (progress : Engine.Progress) (row : Row) :
    Reference Engine.Progress := do
  rewrite (Slots.place (rowBefore key) (host.storedRow table row))
  return (progress.1 + 1, progress.2 ++ (<- aside (Engine.returnRow host params returning row)))

/-- One row of an `INSERT`: a taken slot refuses the row, ignores it or gives up its own. -/
def insertSlot (plan : InsertPlan) (table : Table) (rules : TableRules)
    (key : List Nat × List Collation) (progress : Engine.Progress) (proposed : Row) :
    Reference Engine.Progress := do
  aside Engine.check
  match <- aside (Engine.applyConstraints host params table rules plan.onConflict proposed) with
  | none => return progress
  | some row =>
    if <- gets fun state => !state.2.any (sameKey host.numerals key row) then
      storeSlot host params plan.returning table key progress row
    else if !plan.onConflict.target.all (sameColumns key.1) then
      fail (conflictError table ⟨0, [], key.1⟩)
    else
      match plan.onConflict.action with
      | .abort => fail (conflictError table ⟨0, [], key.1⟩)
      | .ignore => return progress
      | .replace => do
          rewrite (vacate host.numerals key row)
          storeSlot host params plan.returning table key progress row
      | .update _ => fail (.unsupported
          "ON CONFLICT DO UPDATE on a WITHOUT ROWID table is not supported yet")

/-- One row of an `UPDATE`: refused when another row has the key it would get. -/
def updateSlot (plan : UpdatePlan) (table : Table) (rules : TableRules)
    (key : List Nat × List Collation) (progress : Engine.Progress) (old : Row) :
    Reference Engine.Progress := do
  aside Engine.check
  if <- aside (Engine.admitted host params plan.filter old) then
    let next <- aside
      (Engine.assigned host params table old plan.assignments (Engine.resized table old))
    let _ <- aside (Engine.applyConstraints host params table rules .abort next)
    if ← gets fun state => (vacate host.numerals key old state.2).any (sameKey host.numerals key next)
    then fail (conflictError table ⟨0, [], key.1⟩)
    else
      rewrite (vacate host.numerals key old)
      storeSlot host params plan.returning table key progress next
  else return progress

/-- One row of a `DELETE`. -/
def deleteSlot (plan : DeletePlan) (key : List Nat × List Collation)
    (progress : Engine.Progress) (old : Row) : Reference Engine.Progress := do
  aside Engine.check
  if <- aside (Engine.admitted host params plan.filter old) then
    let returned <- aside (Engine.returnRow host params plan.returning old)
    rewrite (vacate host.numerals key old)
    return (progress.1 + 1, progress.2 ++ returned)
  else return progress

/-- `INSERT`. -/
def insert (plan : InsertPlan) (table : Table) (key : List Nat × List Collation) :
    Reference Engine.Progress := do
  let rules <- aside (tryGets fun engine => tableRules host engine.catalog table)
  let proposed <- aside (Engine.proposedRows host params table rules plan.source)
  proposed.foldlM (insertSlot host params plan table rules key) (0, [])

/-- `UPDATE`, over the rows in key order. -/
def update (plan : UpdatePlan) (table : Table) (key : List Nat × List Collation) :
    Reference Engine.Progress := do
  let rules <- aside (tryGets fun engine => tableRules host engine.catalog table)
  let candidates <- gets Prod.snd
  candidates.foldlM (updateSlot host params plan table rules key) (0, [])

/-- `DELETE`, over the rows in key order. -/
def delete (plan : DeletePlan) (key : List Nat × List Collation) : Reference Engine.Progress := do
  let candidates <- gets Prod.snd
  candidates.foldlM (deleteSlot host params plan key) (0, [])

/-! ## Rows that can be stored -/

/-- The key of a row can be encoded, and rounding its integers leaves its order against
these rows as it is. -/
structure Storable (key : List Nat × List Collation) (rows : List Row) (row : Row) : Prop where
  encodable : ∃ bytes, Engine.primaryKeyBytes key row = .ok bytes
  keeps : ∀ other ∈ rows, RoundingKeeps key row other

/-- The row an `INSERT` would store is storable. -/
def InsertStorable (plan : InsertPlan) (table : Table) (rules : TableRules)
    (key : List Nat × List Collation) (state : Engine × List Row) (proposed : Row) : Prop :=
  ∀ row after, (do
      Engine.check
      Engine.applyConstraints host params table rules plan.onConflict proposed : Method (Option Row))
        state.1 = (.ok (some row), after) ->
    Storable key state.2 row

/-- The row an `UPDATE` would store in the place of `old` is storable beside the others. -/
def UpdateStorable (plan : UpdatePlan) (table : Table) (rules : TableRules)
    (key : List Nat × List Collation) (state : Engine × List Row) (old : Row) : Prop :=
  ∀ next after, (do
      Engine.check
      if <- Engine.admitted host params plan.filter old then
        let next <-
          Engine.assigned host params table old plan.assignments (Engine.resized table old)
        let _ <- Engine.applyConstraints host params table rules .abort next
        return some next
      else return none : Method (Option Row)) state.1 = (.ok (some next), after) ->
    Storable key (vacate host.numerals key old state.2) next

end Reference

end InlaySql.Sql
