import InlaySql.Sql.KeyedReference

/-!
# Tables without row ids are maps

Row by row, the statements on a `WITHOUT ROWID` table do to what is stored what the
reference does to its list, as long as each row they store is one whose key the stored
bytes tell apart as the comparisons do. So after any run of such statements a scan yields
the rows of the reference.
-/

namespace InlaySql.Sql

open Lib
open Stateful

/-! ## Rows under their keys -/

/-- Each entry is under the key of its row, and the bytes of the keys are ordered as the
keys are. -/
structure Held (key : List Nat × List Collation) (entries : List (Bytes × Row)) : Prop where
  keyed : ∀ stored ∈ entries, HasKey key stored.2 stored.1
  keeps : ∀ left ∈ entries, ∀ right ∈ entries, RoundingKeeps key left.2 right.2

namespace Held

variable {key : List Nat × List Collation} {entries : List (Bytes × Row)} {row kept : Row}
  {bytes : Bytes}

theorem nil : Held key [] := ⟨nofun, nofun⟩

theorem filter (held : Held key entries) (stays : Bytes × Row -> Bool) :
    Held key (entries.filter stays) :=
  ⟨fun stored member => held.keyed stored (List.mem_of_mem_filter member),
    fun left isLeft right isRight => held.keeps left (List.mem_of_mem_filter isLeft) right
      (List.mem_of_mem_filter isRight)⟩

section

variable (held : Held key entries) (has : HasKey key row bytes)
    (keeps : ∀ stored ∈ entries, RoundingKeeps key row stored.2)

include held has keeps

theorem place (same : keyCells key kept = keyCells key row) :
    Held key (Slots.place Storage.keyBefore (bytes, kept) entries) ∧
      (Slots.place Storage.keyBefore (bytes, kept) entries).map Prod.snd =
        Slots.place (rowBefore key) kept (entries.map Prod.snd) := by
  have keptHas : HasKey key kept bytes := has.congr same
  have keptKeeps : ∀ stored ∈ entries, RoundingKeeps key kept stored.2 :=
    fun stored member => (keeps stored member).congr same
  refine ⟨⟨fun stored member => ?_, fun left isLeft right isRight => ?_⟩, ?_⟩
  · rcases Slots.mem_place.mp member with rfl | ⟨member, -⟩
    · exact keptHas
    · exact held.keyed stored member
  · rcases Slots.mem_place.mp isLeft with rfl | ⟨isLeft, -⟩
    · rcases Slots.mem_place.mp isRight with rfl | ⟨isRight, -⟩
      · exact .of_same rfl
      · exact keptKeeps right isRight
    · rcases Slots.mem_place.mp isRight with rfl | ⟨isRight, -⟩
      · exact (keptKeeps left isLeft).symm
      · exact held.keeps left isLeft right isRight
  · refine Slots.map_place fun stored member => ⟨?_, ?_⟩
    · exact ((held.keyed stored member).rowBefore_eq keptHas (keptKeeps stored member).symm).symm
    · exact (keptHas.rowBefore_eq (held.keyed stored member) (keptKeeps stored member)).symm

theorem vacate (numerals : Numerals) : (entries.filter (·.1 != bytes)).map Prod.snd =
      Sql.vacate numerals key row (entries.map Prod.snd) := by
  rw [Sql.vacate, List.filter_map]
  refine congrArg _ (List.filter_congr fun stored member => ?_)
  rw [Function.comp_apply, has.sameKey_eq (held.keyed stored member) (keeps stored member)]
  rw [bne_comm, bne, beq_eq_decide]

theorem any_sameKey (numerals : Numerals) :
    (entries.map Prod.snd).any (sameKey numerals key row) = entries.any (·.1 == bytes) := by
  rw [Bool.eq_iff_iff, List.any_map, List.any_eq_true, List.any_eq_true]
  refine exists_congr fun stored => and_congr_right fun member => ?_
  rw [Function.comp_apply, has.sameKey_eq (held.keyed stored member) (keeps stored member),
    decide_eq_true_iff, beq_iff_eq, eq_comm]

end

end Held

namespace Storage

variable {storage : Storage} {table : String} {key : Bytes} {row : Row}

theorem any_keyedRows :
    (storage.keyedRows table).any (·.1 == key) = (storage.getRowKeyed table key).isSome := by
  rw [Bool.eq_iff_iff, List.any_eq_true, Option.isSome_iff_exists]
  constructor
  · rintro ⟨stored, member, isKey⟩
    rw [beq_iff_eq] at isKey
    exact ⟨stored.2, isKey ▸ mem_keyedRows.mp member⟩
  · rintro ⟨row, found⟩
    exact ⟨(key, row), mem_keyedRows.mpr found, beq_self_eq_true key⟩

theorem place_filter (entries : List (Bytes × Row)) :
    Slots.place keyBefore (key, row) (entries.filter (·.1 != key)) =
      Slots.place keyBefore (key, row) entries := by
  unfold Slots.place
  rw [List.filter_filter, List.filter_filter]
  congr 1
  · refine List.filter_congr fun stored _ => ?_
    by_cases same : stored.1 = key <;> simp [keyBefore, same]
  · refine congrArg _ (List.filter_congr fun stored _ => ?_)
    by_cases same : stored.1 = key <;> simp [keyBefore, same]

end Storage

/-- A `WITHOUT ROWID` table and its key, as they are declared. -/
structure KeyedTable (table : Table) (key : List Nat × List Collation) : Prop where
  withoutRowid : table.withoutRowid = true
  isKey : Engine.primaryKeyOf table = .ok key
  notNull : ∀ ordinal ∈ key.1, ∃ column, table.columns[ordinal]? = some column ∧
    column.notNull = true

/-- The encoding of a row gives back every value that comparisons order. -/
def Host.KeepsCells (host : Host) : Prop :=
  ∀ table row ordinal, (Row.cell row ordinal).Ordered ->
    (host.storedRow table row).cell ordinal = row.cell ordinal

theorem Host.KeepsCells.keyCells_eq {host : Host} (keepsCells : host.KeepsCells) (table : Table)
    {key : List Nat × List Collation} {row : Row} {bytes : Bytes} (has : HasKey key row bytes) :
    keyCells key (host.storedRow table row) = keyCells key row :=
  List.map_congr_left fun ordinal isKey =>
    keepsCells table row ordinal (has.ordered _ (List.mem_map_of_mem isKey))

/-! ## Step by step -/

/-- The reference beside the engine: but for what is stored one engine, and the rows of
these entries. -/
structure Matches (key : List Nat × List Collation) (entries : List (Bytes × Row))
    (engine : Engine) (state : Engine × List Row) : Prop where
  beside : ∃ storage, state.1 = engine.putStorage storage
  rows : state.2 = entries.map Prod.snd
  held : Held key entries

/-- The rows of the reference are those of the table. -/
def Tracks (table : Table) (key : List Nat × List Collation) (engine : Engine)
    (state : Engine × List Row) : Prop :=
  Matches key (engine.storage.keyedRows table.name) engine state

section Steps

variable {host : Host} {params : List Value} {table : Table} {rules : TableRules}
  {key : List Nat × List Collation} {entries : List (Bytes × Row)} {engine : Engine}
  {state : Engine × List Row} {row : Row} {bytes : Bytes}

variable {α : Type} {method : Method α}

theorem Matches.aside (blind : Blind Engine.putStorage method)
    (matched : Matches key entries engine state) :
    Agrees (fun after next => Matches key entries after next ∧ after.storage = engine.storage)
      method (Stateful.aside method) engine state := by
  obtain ⟨⟨storage, isBeside⟩, isRows, held⟩ := matched
  have ran : method state.1 = ((method engine).1, (method engine).2.putStorage storage) := by
    rw [isBeside]
    exact blind storage engine
  refine ⟨(congrArg Prod.fst ran).symm, ⟨⟨storage, congrArg Prod.snd ran⟩, isRows, held⟩, ?_⟩
  exact Engine.storage_of_blind blind engine

theorem Matches.store (keepsCells : host.KeepsCells) (has : HasKey key row bytes)
    (keeps : ∀ other ∈ state.2, RoundingKeeps key row other)
    (matched : Matches key ((engine.storage.keyedRows table.name).filter (·.1 != bytes)) engine state)
    (returning : Option (List SelectItem)) (progress : Engine.Progress) :
    Agrees (fun after next => Tracks table key after next ∧
        after.storage = engine.storage.putRowKeyed table.name bytes (host.storedRow table row))
      (do
        Engine.write (·.putRowKeyed table.name bytes (host.storedRow table row))
        return (progress.1 + 1, progress.2 ++ (<- Engine.returnRow host params returning row)))
      (Reference.storeSlot host params returning table key progress row) engine state := by
  obtain ⟨⟨storage, isBeside⟩, isRows, held⟩ := matched
  have told : ∀ stored ∈ (engine.storage.keyedRows table.name).filter (·.1 != bytes),
      RoundingKeeps key row stored.2 := by
    intro stored member
    exact keeps stored.2 (isRows ▸ List.mem_map_of_mem member)
  obtain ⟨heldAfter, rowsAfter⟩ := held.place has told (keepsCells.keyCells_eq table has)
  rw [Storage.place_filter] at heldAfter rowsAfter
  let placed := Slots.place Storage.keyBefore (bytes, host.storedRow table row)
    (engine.storage.keyedRows table.name)
  let written := engine.storage.putRowKeyed table.name bytes (host.storedRow table row)
  have tracked : ∀ (after : Engine) (next : Engine × List Row), Matches key placed after next ->
      after.storage = written -> Tracks table key after next ∧ after.storage = written := by
    intro after next matched isStorage
    refine ⟨?_, isStorage⟩
    rwa [Tracks, isStorage, Storage.keyedRows_putRowKeyed]
  have put : Agrees (fun after next => Matches key placed after next ∧ after.storage = written)
      (Engine.write (·.putRowKeyed table.name bytes (host.storedRow table row)))
      (Reference.rewrite (Slots.place (rowBefore key) (host.storedRow table row))) engine state := by
    refine .change ⟨⟨⟨storage, ?_⟩, ?_, heldAfter⟩, rfl⟩
    · rw [isBeside]
      rfl
    · rw [rowsAfter, isRows]
  refine put.bind (fun after next both => tracked after next both.1 both.2) ?_
  rintro - after next - - ⟨matched, isStorage⟩
  refine (matched.aside (Engine.blind_returnRow host params returning row)).bind ?_ ?_
  · rintro last final ⟨matched, same⟩
    exact tracked last final matched (same.trans isStorage)
  · rintro values last final - - ⟨matched, same⟩
    exact .pure _ (tracked last final matched (same.trans isStorage))

theorem Tracks.aside (blind : Blind Engine.putStorage method)
    (tracks : Tracks table key engine state) :
    Agrees (fun after next => Tracks table key after next ∧ after.storage = engine.storage)
      method (Stateful.aside method) engine state := by
  obtain ⟨same, matched, isStorage⟩ := Matches.aside blind tracks
  refine ⟨same, ?_, isStorage⟩
  rw [Tracks, isStorage]
  exact matched

theorem KeyedTable.hasKey (keyed : KeyedTable table key) {rows : List Row}
    (storable : Reference.Storable key rows row)
    (notNull : ∀ ordinal column, table.columns[ordinal]? = some column -> column.notNull = true ->
      row.cell ordinal ≠ .null) : ∃ bytes, HasKey key row bytes := by
  obtain ⟨bytes, encoded⟩ := storable.encodable
  refine ⟨bytes, encoded, fun ordinal isKey => ?_⟩
  obtain ⟨column, isColumn, required⟩ := keyed.notNull ordinal isKey
  exact notNull ordinal column isColumn required

theorem Tracks.vacant (tracks : Tracks table key engine state)
    (vacant : ∀ stored ∈ engine.storage.keyedRows table.name, stored.1 ≠ bytes) :
    Matches key ((engine.storage.keyedRows table.name).filter (·.1 != bytes)) engine state := by
  rw [List.filter_eq_self.mpr fun stored member => bne_iff_ne.mpr (vacant stored member)]
  exact tracks

theorem Tracks.vacate (has : HasKey key row bytes)
    (keeps : ∀ stored ∈ engine.storage.keyedRows table.name, RoundingKeeps key row stored.2)
    (numerals : Numerals) (tracks : Tracks table key engine state) :
    Agrees (fun after next => Tracks table key after next ∧
        after.storage = engine.storage.deleteRowKeyed table.name bytes)
      (Engine.write (·.deleteRowKeyed table.name bytes))
      (Reference.rewrite (Sql.vacate numerals key row)) engine state := by
  obtain ⟨⟨storage, isBeside⟩, isRows, held⟩ := tracks
  refine .change ⟨⟨⟨storage, ?_⟩, ?_, ?_⟩, rfl⟩
  · rw [isBeside]
    rfl
  · simp only [isRows]
    rw [Storage.keyedRows_deleteRowKeyed, held.vacate has keeps]
  · simp only []
    rw [Storage.keyedRows_deleteRowKeyed]
    exact held.filter _

theorem insertKeyedRow_agrees (keyed : KeyedTable table key) (keepsCells : host.KeepsCells)
    (plan : InsertPlan) (progress : Engine.Progress) {proposed : Row}
    (width : proposed.length = table.columns.length)
    (storable : Reference.InsertStorable host params plan table rules key state proposed)
    (tracks : Tracks table key engine state) :
    Agrees (Tracks table key) (Engine.insertKeyedRow host params plan table rules key progress proposed)
      (Reference.insertSlot host params plan table rules key progress proposed) engine state := by
  unfold Engine.insertKeyedRow Reference.insertSlot
  refine (tracks.aside Engine.blind_check).bind (fun _ _ both => both.1) ?_
  rintro ⟨⟩ checked checkedOther - ranCheck ⟨tracks, -⟩
  refine (tracks.aside (Engine.blind_applyConstraints host params table rules plan.onConflict
    proposed)).bind (fun _ _ both => both.1) ?_
  rintro kept after next - ranConstraints ⟨tracks, -⟩
  cases kept with
  | none => exact .pure _ tracks
  | some row =>
    obtain ⟨ranCheck, sameRows⟩ := of_aside_eq ranCheck
    obtain ⟨ranConstraints, stillRows⟩ := of_aside_eq ranConstraints
    have isStorable : Reference.Storable key next.2 row := by
      rw [stillRows, sameRows]
      exact storable row next.1 ((Stateful.bind_of_ok ranCheck).trans ranConstraints)
    obtain ⟨bytes, has⟩ := keyed.hasKey isStorable fun ordinal column isColumn notNull =>
      Engine.applyConstraints_some width ranConstraints isColumn notNull
    simp only []
    rw [has.encoded, ofExcept_ok_bind]
    have keeps : ∀ stored ∈ after.storage.keyedRows table.name, RoundingKeeps key row stored.2 := by
      intro stored member
      refine isStorable.keeps stored.2 ?_
      rw [tracks.rows]
      exact List.mem_map_of_mem member
    have free : (after.storage.getRowKeyed table.name bytes).isNone =
        !next.2.any (sameKey host.numerals key row) := by
      rw [tracks.rows, tracks.held.any_sameKey has keeps, Storage.any_keyedRows, Option.not_isSome]
    refine .branch free (fun isFree => ?_) fun taken => ?_
    · have vacant : ∀ stored ∈ after.storage.keyedRows table.name, stored.1 ≠ bytes := by
        intro stored member same
        have found := Storage.mem_keyedRows.mp member
        rw [same] at found
        rw [found] at isFree
        cases isFree
      obtain ⟨same, tracks, -⟩ := Matches.store keepsCells has isStorable.keeps
        (tracks.vacant vacant) plan.returning progress
      exact ⟨same, tracks⟩
    · split
      · exact .fail _ tracks
      · cases plan.onConflict.action with
        | abort | update => exact .fail _ tracks
        | ignore => exact .pure _ tracks
        | replace =>
          refine (tracks.vacate has keeps host.numerals).bind (fun _ _ both => both.1) ?_
          rintro ⟨⟩ emptied emptiedOther - ranVacate ⟨tracks, isStorage⟩
          obtain rfl : (next.1, vacate host.numerals key row next.2) = emptiedOther := by
            cases ranVacate
            rfl
          have vacant : ∀ stored ∈ emptied.storage.keyedRows table.name, stored.1 ≠ bytes := by
            intro stored member same
            rw [Storage.mem_keyedRows, isStorage, Storage.getRowKeyed_deleteRowKeyed,
              if_pos same.symm] at member
            cases member
          obtain ⟨same, tracks, -⟩ := Matches.store keepsCells has
            (fun other member => isStorable.keeps other (List.mem_of_mem_filter member))
            (tracks.vacant vacant) plan.returning progress
          exact ⟨same, tracks⟩

/-- What remains of a scan that was taken when the statement began is still stored. -/
structure Pending (table : Table) (key : List Nat × List Collation)
    (remaining : List (Bytes × Row)) (engine : Engine) (state : Engine × List Row) : Prop where
  tracks : Tracks table key engine state
  stored : ∀ stored ∈ remaining, engine.storage.getRowKeyed table.name stored.1 = some stored.2
  apart : remaining.Pairwise (·.1 ≠ ·.1)

variable {remaining : List (Bytes × Row)} {old : Bytes × Row}

theorem Pending.tail (pending : Pending table key (old :: remaining) engine state) :
    Pending table key remaining engine state :=
  ⟨pending.tracks, fun stored member => pending.stored stored (List.mem_cons_of_mem _ member),
    pending.apart.tail⟩

theorem Pending.aside (blind : Blind Engine.putStorage method)
    (pending : Pending table key remaining engine state) :
    Agrees (Pending table key remaining) method (Stateful.aside method) engine state := by
  obtain ⟨same, tracks, isStorage⟩ := pending.tracks.aside blind
  refine ⟨same, tracks, fun stored member => ?_, pending.apart⟩
  rw [isStorage]
  exact pending.stored stored member

theorem Pending.head (pending : Pending table key (old :: remaining) engine state) :
    HasKey key old.2 old.1 ∧
      ∀ stored ∈ engine.storage.keyedRows table.name, RoundingKeeps key old.2 stored.2 := by
  have member := Storage.mem_keyedRows.mpr (pending.stored old List.mem_cons_self)
  exact ⟨pending.tracks.held.keyed old member, pending.tracks.held.keeps old member⟩

theorem deleteKeyedRow_agrees (plan : DeletePlan) (progress : Engine.Progress)
    (pending : Pending table key (old :: remaining) engine state) :
    Agrees (Pending table key remaining) (Engine.deleteKeyedRow host params plan table progress old)
      (Reference.deleteSlot host params plan key progress old.2) engine state := by
  unfold Engine.deleteKeyedRow Reference.deleteSlot
  refine (pending.aside Engine.blind_check).bind (fun _ _ pending => pending.tail) ?_
  rintro - checked checkedOther - - pending
  refine (pending.aside (Engine.blind_admitted host params plan.filter old.2)).bind
    (fun _ _ pending => pending.tail) ?_
  rintro isAdmitted filtered filteredOther - - pending
  cases isAdmitted with
  | false => exact .pure _ pending.tail
  | true =>
    refine (pending.aside (Engine.blind_returnRow host params plan.returning old.2)).bind
      (fun _ _ pending => pending.tail) ?_
    rintro returned after next - - pending
    obtain ⟨has, keeps⟩ := pending.head
    obtain ⟨-, tracks, isStorage⟩ := pending.tracks.vacate has keeps host.numerals
    refine ⟨rfl, tracks, fun stored member => ?_, pending.apart.tail⟩
    have apart := (List.pairwise_cons.mp pending.apart).1 stored member
    exact (Storage.getRowKeyed_deleteRowKeyed.trans (if_neg apart)).trans
      (pending.tail.stored stored member)

theorem Pending.taken_eq {next : Row}
    (pending : Pending table key (old :: remaining) engine state) (has : HasKey key next bytes)
    (storable : Reference.Storable key (vacate host.numerals key old.2 state.2) next) :
    (bytes != old.1 && (engine.storage.getRowKeyed table.name bytes).isSome) =
      (vacate host.numerals key old.2 state.2).any (sameKey host.numerals key next) := by
  obtain ⟨oldHas, oldKeeps⟩ := pending.head
  have others := pending.tracks.held.vacate oldHas oldKeeps host.numerals
  rw [<- pending.tracks.rows] at others
  rw [<- others] at storable ⊢
  rw [(pending.tracks.held.filter _).any_sameKey has
    fun stored member => storable.keeps stored.2 (List.mem_map_of_mem member)]
  rw [<- Storage.any_keyedRows, List.any_filter]
  by_cases moved : bytes = old.1
  · rw [moved, bne_self_eq_false, Bool.false_and, eq_comm, List.any_eq_false]
    rintro stored - both
    simp at both
  · rw [bne_iff_ne.mpr moved, Bool.true_and]
    refine congrArg (List.any _) (funext fun stored => ?_)
    by_cases here : stored.1 = bytes
    · simp [here, moved]
    · simp [here]

section

variable {next : Row} (keepsCells : host.KeepsCells)
    (pending : Pending table key (old :: remaining) engine state)

include keepsCells pending

theorem Pending.replaced (has : HasKey key next old.1)
    (storable : Reference.Storable key (vacate host.numerals key old.2 state.2) next)
    (returning : Option (List SelectItem)) (progress : Engine.Progress) :
    Agrees (Pending table key remaining) (do
        Engine.write (·.putRowKeyed table.name old.1 (host.storedRow table next))
        return (progress.1 + 1, progress.2 ++ (<- Engine.returnRow host params returning next)))
      (do
        Reference.rewrite (vacate host.numerals key old.2)
        Reference.storeSlot host params returning table key progress next) engine state := by
  obtain ⟨oldHas, oldKeeps⟩ := pending.head
  obtain ⟨⟨storage, isBeside⟩, isRows, held⟩ := pending.tracks
  have matched : Matches key ((engine.storage.keyedRows table.name).filter (·.1 != old.1)) engine
      (state.1, vacate host.numerals key old.2 state.2) := by
    refine ⟨⟨storage, isBeside⟩, ?_, held.filter _⟩
    rw [held.vacate oldHas oldKeeps host.numerals, isRows]
  obtain ⟨same, tracks, isStorage⟩ :=
    matched.store keepsCells has storable.keeps returning progress
  refine ⟨same, tracks, fun stored member => ?_, pending.apart.tail⟩
  have apart := (List.pairwise_cons.mp pending.apart).1 stored member
  rw [isStorage, Storage.getRowKeyed_putRowKeyed, if_neg apart]
  exact pending.tail.stored stored member

theorem Pending.moved (has : HasKey key next bytes)
    (storable : Reference.Storable key (vacate host.numerals key old.2 state.2) next)
    (moved : bytes ≠ old.1) (free : engine.storage.getRowKeyed table.name bytes = none)
    (returning : Option (List SelectItem)) (progress : Engine.Progress) :
    Agrees (Pending table key remaining) (do
        Engine.write (·.deleteRowKeyed table.name old.1)
        Engine.write (·.putRowKeyed table.name bytes (host.storedRow table next))
        return (progress.1 + 1, progress.2 ++ (<- Engine.returnRow host params returning next)))
      (do
        Reference.rewrite (vacate host.numerals key old.2)
        Reference.storeSlot host params returning table key progress next) engine state := by
  obtain ⟨oldHas, oldKeeps⟩ := pending.head
  have emptied : Agrees (fun after next => (Tracks table key after next ∧
        after.storage = engine.storage.deleteRowKeyed table.name old.1) ∧
        next.2 = vacate host.numerals key old.2 state.2)
      (Engine.write (·.deleteRowKeyed table.name old.1))
      (Reference.rewrite (vacate host.numerals key old.2)) engine state := by
    obtain ⟨same, both⟩ := pending.tracks.vacate oldHas oldKeeps host.numerals
    exact ⟨same, both, rfl⟩
  have later : ∀ {after : Engine} {other : Engine × List Row}, Tracks table key after other ->
      (∀ stored ∈ remaining, after.storage.getRowKeyed table.name stored.1 =
        engine.storage.getRowKeyed table.name stored.1) ->
      Pending table key remaining after other := by
    intro after other tracks same
    refine ⟨tracks, fun stored member => ?_, pending.apart.tail⟩
    exact (same stored member).trans (pending.tail.stored stored member)
  have deleted : ∀ stored ∈ remaining,
      (engine.storage.deleteRowKeyed table.name old.1).getRowKeyed table.name stored.1 =
        engine.storage.getRowKeyed table.name stored.1 := by
    intro stored member
    rw [Storage.getRowKeyed_deleteRowKeyed,
      if_neg ((List.pairwise_cons.mp pending.apart).1 stored member)]
  refine emptied.bind ?_ ?_
  · rintro after other ⟨⟨tracks, isStorage⟩, -⟩
    exact later tracks fun stored member => isStorage ▸ deleted stored member
  · rintro ⟨⟩ after other - - ⟨⟨tracks, isStorage⟩, isRows⟩
    have vacant : ∀ stored ∈ after.storage.keyedRows table.name, stored.1 ≠ bytes := by
      intro stored member same
      rw [Storage.mem_keyedRows, isStorage, Storage.getRowKeyed_deleteRowKeyed, same,
        if_neg moved.symm, free] at member
      cases member
    obtain ⟨same, tracks, isLast⟩ := Matches.store keepsCells has (isRows ▸ storable.keeps)
      (tracks.vacant vacant) returning progress
    refine ⟨same, later tracks fun stored member => ?_⟩
    have apart : bytes ≠ stored.1 := by
      rintro rfl
      rw [pending.tail.stored stored member] at free
      cases free
    rw [isLast, Storage.getRowKeyed_putRowKeyed, if_neg apart, isStorage, deleted stored member]

end

theorem updateKeyedRow_agrees (keyed : KeyedTable table key) (keepsCells : host.KeepsCells)
    (plan : UpdatePlan) (progress : Engine.Progress)
    (storable : Reference.UpdateStorable host params plan table rules key state old.2)
    (pending : Pending table key (old :: remaining) engine state) :
    Agrees (Pending table key remaining)
      (Engine.updateKeyedRow host params plan table rules key progress old)
      (Reference.updateSlot host params plan table rules key progress old.2) engine state := by
  unfold Engine.updateKeyedRow Reference.updateSlot
  refine (pending.aside Engine.blind_check).bind (fun _ _ pending => pending.tail) ?_
  rintro ⟨⟩ checked checkedOther - ranCheck pending
  refine (pending.aside (Engine.blind_admitted host params plan.filter old.2)).bind
    (fun _ _ pending => pending.tail) ?_
  rintro isAdmitted filtered filteredOther - ranFilter pending
  cases isAdmitted with
  | false => exact .pure _ pending.tail
  | true =>
    refine (pending.aside (Engine.blind_assigned host params table old.2 plan.assignments
      (Engine.resized table old.2))).bind (fun _ _ pending => pending.tail) ?_
    rintro next assigned assignedOther - ranAssigned pending
    refine (pending.aside (Engine.blind_applyConstraints host params table rules .abort
      next)).bind (fun _ _ pending => pending.tail) ?_
    rintro passed after afterOther - ranConstraints pending
    obtain ⟨ranCheck, sameRows⟩ := of_aside_eq ranCheck
    obtain ⟨ranFilter, filteredRows⟩ := of_aside_eq ranFilter
    obtain ⟨ranAssigned, assignedRows⟩ := of_aside_eq ranAssigned
    obtain ⟨ranConstraints, stillRows⟩ := of_aside_eq ranConstraints
    have isStorable : Reference.Storable key (vacate host.numerals key old.2 afterOther.2) next := by
      rw [stillRows, assignedRows, filteredRows, sameRows]
      refine storable next afterOther.1 ?_
      rw [Stateful.bind_of_ok ranCheck, Stateful.bind_of_ok ranFilter, if_pos rfl,
        Stateful.bind_of_ok ranAssigned, Stateful.bind_of_ok ranConstraints]
      rfl
    obtain rfl := Engine.applyConstraints_abort ranConstraints
    have width : next.length = table.columns.length :=
      (Engine.length_assigned ranAssigned).trans (Engine.length_resized table old.2)
    obtain ⟨bytes, has⟩ := keyed.hasKey isStorable fun ordinal column isColumn notNull =>
      Engine.applyConstraints_some width ranConstraints isColumn notNull
    simp only []
    rw [has.encoded, ofExcept_ok_bind]
    refine .branch (pending.taken_eq has isStorable) (fun _ => .fail _ pending.tail) fun free => ?_
    by_cases moved : bytes = old.1
    · subst moved
      simp only [bne_self_eq_false, Bool.false_eq_true, if_false]
      exact pending.replaced keepsCells has isStorable plan.returning progress
    · rw [bne_iff_ne.mpr moved, Bool.true_and, Option.isSome_eq_false_iff,
        Option.isNone_iff_eq_none] at free
      simp only [bne_iff_ne, ne_eq, moved, not_false_eq_true, if_true]
      exact pending.moved keepsCells has isStorable moved free plan.returning progress

end Steps

end InlaySql.Sql
