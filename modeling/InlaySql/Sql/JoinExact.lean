import InlaySql.Sql.JoinKeys
import InlaySql.Sql.JoinLoop

/-!
# When the join strategies agree

Each strategy hands the loops some of the inner rows; it answers as the nested loop does
exactly when every pair the `ON` admits is among them. They lose a pair in three places:
a hash build and a `NaN`, which a comparison calls equal to every number; a row-id probe
and a number that equals a row id only after rounding; an index probe and two texts that
are equal only as numbers.
-/

namespace InlaySql.Sql

open List Option Lib

/-- One join of a plan: the tables before it, the inner table and the columns of the
tables after it. -/
structure JoinSite where
  storage : Storage
  cache : HashJoinCache
  catalog : Catalog
  outers : List Table
  inner : Table
  later : List Column
  mask : ColumnMask
  on : Option Expr
  kind : JoinKind
  env : Env

namespace JoinSite

variable (site : JoinSite)

def outerColumns : List Column := site.outers.flatMap (·.columns)

/-- Where the inner table begins in the joined row. -/
def offset : Nat := site.outerColumns.length

def width : Nat := site.inner.columns.length

/-- The columns the `ON` is planned over. -/
def scope : Table :=
  { site.inner with columns := site.outerColumns ++ (site.inner.columns ++ site.later) }

def stored : List (RowId × Row) := site.storage.rows site.inner.name

/-- An inner row as the join sees it. -/
def view (stored : RowId × Row) : Row := site.mask.apply stored.2

/-- Whether the `ON` is true of a pair. -/
def admits (outer row : Row) : Bool := site.on.all fun on => on.admits site.env (outer ++ row)

/-- The nested-loop answer: for each outer row in order, the inner rows in row-id order
the `ON` is true of, or padding. -/
def answer (outers : List ExecRow) : List ExecRow :=
  narrowedAnswer site.kind (joinedRow site.width) site.stored site.view
    (fun outer stored => site.admits outer (site.view stored)) outers

/-- The strategy of the plan. -/
def strategy (fullScan : Bool) (decision : Option JoinPath) : JoinStrategy :=
  joinStrategy site.catalog site.outers site.inner site.offset site.on fullScan decision

def side (strategy : JoinStrategy) : JoinInner :=
  joinInner site.storage site.cache site.inner site.mask strategy

/-- The rows agree with the table's declaration and its indexes, and the `ON` is planned. -/
structure Ready : Prop where
  indexed : Indexed site.storage site.catalog site.inner
  wide : ∀ stored ∈ site.stored, stored.2.length = site.width
  planned : ∀ on, site.on = some on -> on.Planned site.scope
  named : ∀ index ∈ site.catalog.indexesFor site.inner.name,
    ∀ other ∈ site.catalog.indexesFor site.inner.name, index.name = other.name -> index = other

/-- An outer row of the tables before the join; a padded column is `NULL`. -/
structure OuterReady (outer : Row) : Prop where
  wide : outer.length = site.offset
  fits : ∀ cell ∈ outer, cell.Fits
  conforms : ∀ (ordinal : Nat) (column : Column) (cell : Value),
    site.outerColumns[ordinal]? = some column -> outer[ordinal]? = some cell ->
      Conforms column.ty cell

/-- The bucket a key falls in, of the build over the inner rows. -/
def bucket (collation : Collation) (value : Value) : Nat :=
  HashJoinTable.bucket (HashJoinTable.bucketsFor site.stored.length - 1) collation value

/-- The column an index leads with. -/
def leads (name : String) (ordinal : Nat) : Prop :=
  ∃ index ∈ site.catalog.indexesFor site.inner.name, index.name = name ∧
    ∃ column, ((index.columns[0]?).bind site.inner.column) = some (ordinal, column)

/-- When a strategy keeps a pair the `ON` admits. -/
def Keeps (strategy : JoinStrategy) (outer : Row) (stored : RowId × Row) : Prop :=
  match strategy with
  | .materialise => True
  | .hash outerKey innerKey collation =>
    let key := outer.cell outerKey
    let cell := (site.view stored).cell innerKey
    key.isNanKey = false ∧ cell.isNanKey = false ∨
      isSingleEquality site.on = false ∧ site.bucket collation key = site.bucket collation cell
  | .probe key _ _ .rowId =>
    match outer.cell key with
    | .integer _ => stored.1 < 2 ^ 63
    | .real number => number.isNan = true ∨ number.toI64 = stored.1
    | _ => True
  | .probe key _ collation (.index name) =>
    ∀ ordinal, site.leads name ordinal -> ∀ text other, outer.cell key = .text text ->
      (site.view stored).cell ordinal = .text other ->
        collation.fold (utf8 text) = collation.fold (utf8 other)

/-- The row ids a probe of a key reaches. -/
def reached (collation : Collation) (kind : ProbeKind) (key : Value) (id : RowId) : Bool :=
  match kind with
  | .rowId => rowIdOf key == some id
  | .index name =>
    match KeyRange.equality name [key] [collation] with
    | .ok range => decide (id ∈ site.storage.scanIndexRowIds range)
    | .error _ => false

/-- Which inner rows a strategy hands the loop for an outer row. -/
def near (strategy : JoinStrategy) (outer : Row) (stored : RowId × Row) : Bool :=
  match strategy with
  | .materialise => true
  | .hash outerKey innerKey collation =>
    (outer[outerKey]?).any fun key => !key.isNull &&
      site.bucket collation key == site.bucket collation ((site.view stored).cell innerKey)
  | .probe outerKey ty collation kind =>
    (outer[outerKey]?).any fun key => !key.isNull &&
      (!indexableProbe ty key || site.reached collation kind key stored.1)

end JoinSite

/-! ## Where the strategies come from -/

section Sources

theorem joinStrategy_cases {catalog : Catalog} {outers : List Table} {inner : Table} {offset : Nat}
    {on : Option Expr} (fullScan : Bool) (decision : Option JoinPath) :
    let strategy := joinStrategy catalog outers inner offset on fullScan decision
    strategy = .materialise ∨
      (∃ key, hashJoinKey outers inner offset on = some key ∧ strategy = .ofHash key) ∨
      (∃ probe, joinProbe catalog inner offset on = some probe ∧ strategy = .ofProbe probe) := by
  unfold joinStrategy
  cases hashJoinKey outers inner offset on <;> cases joinProbe catalog inner offset on <;>
    cases fullScan <;> rcases decision with _ | _ | _ <;> simp

variable {outers : List Table} {inner : Table} {offset : Nat} {on : Option Expr}

theorem outerColumnType_eq {ordinal : Nat} {column : Column}
    (found : (outers.flatMap (·.columns))[ordinal]? = some column) :
    outerColumnType outers ordinal = column.ty := by
  induction outers generalizing ordinal with
  | nil => cases found
  | cons table rest ih =>
    rw [flatMap_cons, getElem?_append] at found
    unfold outerColumnType
    split at found
    · rw [found]
    · rw [getElem?_eq_none (by omega)]
      exact ih found

theorem hashJoinKey_spec {key : JoinKey} (found : hashJoinKey outers inner offset on = some key) :
    ∃ expr column, on = some expr ∧ key ∈ collectJoinKeys offset inner.columns.length expr ∧
      inner.columns[key.inner]? = some column ∧ column.ty.isStorageClass = true ∧
        outerColumnType outers key.outer = column.ty := by
  obtain ⟨expr, isOn, found⟩ := bind_eq_some_iff.mp found
  have good := find?_some found
  simp only [Option.any_eq_true, Bool.and_eq_true, beq_iff_eq] at good
  obtain ⟨column, isColumn, isClass, same⟩ := good
  exact ⟨expr, column, isOn, mem_of_find?_eq_some found, isColumn, isClass, same⟩

theorem narrowestIndex_spec {key : JoinKey} {indexes : List Index} {index : Index}
    (found : narrowestIndex inner key indexes = some index) :
    index ∈ indexes ∧ leadsWith inner key index = true := by
  have general : ∀ (rest : List Index) (best : Option Index),
      (∀ index, best = some index -> index ∈ indexes ∧ leadsWith inner key index = true) ->
      (∀ index ∈ rest, index ∈ indexes) ->
      ∀ index, rest.foldl (fun best index =>
        if leadsWith inner key index &&
            best.all (fun best => decide (index.columns.length < best.columns.length))
        then some index else best) best = some index ->
          index ∈ indexes ∧ leadsWith inner key index = true := by
    intro rest
    induction rest with
    | nil => exact fun best good _ => good
    | cons first rest ih =>
      intro best good inside
      refine ih _ ?_ fun index member => inside index (mem_cons_of_mem _ member)
      intro index isBest
      simp only at isBest
      split at isBest
      · rename_i better
        rw [<- Option.some.inj isBest]
        exact ⟨inside first mem_cons_self, (Bool.and_eq_true_iff.mp better).1⟩
      · exact good index isBest
  exact general indexes none (fun _ none => nomatch none) (fun _ member => member) index found

theorem joinProbe_spec {catalog : Catalog} {outer : Nat} {ty : DataType} {collation : Collation}
    {kind : ProbeKind}
    (found : joinProbe catalog inner offset on = some (outer, ty, collation, kind)) :
    ∃ expr key, on = some expr ∧ key ∈ collectJoinKeys offset inner.columns.length expr ∧
      outer = key.outer ∧
      (kind = .rowId ∧ ty = .integer ∧ inner.rowidAlias = some key.inner ∨
        ∃ column, ∃ index ∈ catalog.indexesFor inner.name, kind = .index index.name ∧
          leadsWith inner key index = true ∧ collation = key.collation ∧
          inner.columns[key.inner]? = some column ∧ column.ty.isStorageClass = true ∧
          ty = column.ty) := by
  obtain ⟨expr, isOn, found⟩ := bind_eq_some_iff.mp found
  refine ⟨expr, ?_⟩
  simp only at found
  split at found
  · rename_i key isKey
    obtain ⟨aliased, isAlias, isKey⟩ := bind_eq_some_iff.mp isKey
    have same : key.inner = aliased := by simpa using find?_some isKey
    cases Option.some.inj found
    exact ⟨key, isOn, mem_of_find?_eq_some isKey, rfl, .inl ⟨rfl, rfl, same ▸ isAlias⟩⟩
  · obtain ⟨key, member, isProbe⟩ := exists_of_findSome?_eq_some found
    obtain ⟨column, isColumn, isProbe⟩ := bind_eq_some_iff.mp isProbe
    split at isProbe
    · rename_i isClass
      obtain ⟨index, isIndex, isProbe⟩ := bind_eq_some_iff.mp isProbe
      obtain ⟨isMember, leads⟩ := narrowestIndex_spec isIndex
      cases Option.some.inj isProbe
      exact ⟨key, isOn, member, rfl,
        .inr ⟨column, index, isMember, rfl, leads, rfl, isColumn, isClass, rfl⟩⟩
    · cases isProbe

end Sources

/-! ## Cells under the mask -/

theorem getElem?_view {mask : ColumnMask} {row : Row} {ordinal : Nat} {cell : Value}
    (found : (mask.apply row)[ordinal]? = some cell) (notNull : cell ≠ .null) :
    row[ordinal]? = some cell := by
  rw [ColumnMask.apply, getElem?_mapIdx] at found
  obtain ⟨value, isValue, same⟩ := map_eq_some_iff.mp found
  split at same
  · rw [isValue, same]
  · exact absurd same.symm notNull

theorem cell_of_getElem? {row : Row} {ordinal : Nat} {cell : Value}
    (found : row[ordinal]? = some cell) : row.cell ordinal = cell := by
  rw [Row.cell, found]
  rfl

namespace JoinSite

variable {site : JoinSite} {outer : Row}

section

variable {ordinal : Nat} {column : Column}

theorem scope_outer (found : site.outerColumns[ordinal]? = some column) :
    site.scope.affinityAt ordinal = columnAffinity column.ty := by
  have inside := (List.getElem?_eq_some_iff.mp found).1
  rw [Table.affinityAt, scope, getElem?_append_left inside, found]
  rfl

theorem scope_inner (found : site.inner.columns[ordinal]? = some column) :
    site.scope.affinityAt (site.offset + ordinal) = columnAffinity column.ty := by
  have inside := (List.getElem?_eq_some_iff.mp found).1
  have whole : site.scope.columns[site.offset + ordinal]? = some column := by
    change (site.outerColumns ++ (site.inner.columns ++ site.later))[site.outerColumns.length +
      ordinal]? = some column
    rw [getElem?_append_right (Nat.le_add_right _ _), Nat.add_sub_cancel_left,
      getElem?_append_left inside, found]
  rw [Table.affinityAt, whole]
  rfl

end

theorem equal_of_admits (ready : site.Ready) (outerReady : site.OuterReady outer) {expr : Expr}
    {row : Row} {key : JoinKey} (isOn : site.on = some expr)
    (member : key ∈ collectJoinKeys site.offset site.width expr)
    (admitted : site.admits outer row = true) :
    key.Equal site.env site.scope outer row := by
  rw [admits, isOn, all_some, admits_eq_true] at admitted
  obtain ⟨value, evaluated, truthy⟩ := admitted
  rw [<- outerReady.wide] at member
  exact collectJoinKeys_equal (ready.planned expr isOn) evaluated truthy member

/-! ## The candidates of a strategy -/

theorem prepare_materialise : (site.side .materialise).prepare site.storage outer =
    .ok ((site.stored.filter (site.near .materialise outer)).map site.view) := by
  have every : site.stored.filter (site.near .materialise outer) = site.stored :=
    filter_eq_self.mpr fun _ _ => rfl
  rw [every]
  rfl

theorem bucket_lt (mask : Nat) (collation : Collation) (value : Value) :
    HashJoinTable.bucket mask collation value ≤ mask :=
  Nat.and_le_right

theorem run_build (rows : List Row) (innerKey width : Nat) (collation : Collation) (number : Nat)
    (inside : number < HashJoinTable.bucketsFor rows.length) :
    (HashJoinTable.build rows innerKey width collation).run number = rows.filter fun row : Row =>
      HashJoinTable.bucket (HashJoinTable.bucketsFor rows.length - 1) collation
        (Row.cell row innerKey) == number := by
  have positive : 16 ≤ HashJoinTable.bucketsFor rows.length := Nat.le_max_right _ _
  rw [HashJoinTable.run, HashJoinTable.build]
  simp only [Buckets.getElem?_offsets _ inside.le, Buckets.getElem?_offsets _ inside, getD_some]
  refine Buckets.run_grouped _ [] (fun row _ => ?_) inside
  have := bucket_lt (HashJoinTable.bucketsFor rows.length - 1) collation (Row.cell row innerKey)
  omega

theorem candidates_some (table : HashJoinTable) {key : Value} (notNull : key ≠ .null) :
    table.candidates (some key) = table.run (HashJoinTable.bucket table.mask table.collation key) := by
  cases key <;> first | exact absurd rfl notNull | rfl

theorem isNull_eq_false {value : Value} (notNull : value ≠ .null) : value.isNull = false := by
  simpa [Value.isNull] using notNull

section Cache

variable {storage : Storage} {cache : HashJoinCache} {shape : JoinShape}

/-- The build a join works with, where the cache is current. -/
theorem hashJoinTable_eq (current : cache.Current storage) (shape : JoinShape) :
    (hashJoinTable storage cache shape).1 = buildTable storage shape := by
  unfold hashJoinTable
  split
  · rename_i table isReused
    exact current isReused
  · rfl

theorem reused_eq_some {table : HashJoinTable} (reused : cache.reused shape = some table) :
    cache.transactionHasWrites = false ∧
      cache.cached = some ⟨cache.writeVersion, shape, table⟩ := by
  unfold HashJoinCache.reused at reused
  split at reused
  · cases reused
  · rename_i noWrites
    obtain ⟨cached, matching, rfl⟩ := Option.map_eq_some_iff.mp reused
    obtain ⟨isCached, same⟩ := Option.filter_eq_some_iff.mp matching
    simp only [Bool.and_eq_true, beq_iff_eq, decide_eq_true_eq] at same
    obtain ⟨version, rfl⟩ := same
    exact ⟨by simpa using noWrites, by rw [isCached, <- version]⟩

/-- A write that moves the write version leaves nothing to reuse. -/
theorem HashJoinCache.current_of_moved
    (moved : ∀ cached, cache.cached = some cached -> cached.writeVersion ≠ cache.writeVersion) :
    cache.Current storage := fun reused => absurd rfl (moved _ (reused_eq_some reused).2)

/-- A join leaves the cache current. -/
theorem HashJoinCache.Current.hashJoinTable (current : cache.Current storage) (shape : JoinShape) :
    (hashJoinTable storage cache shape).2.Current storage := by
  unfold Sql.hashJoinTable
  split
  · exact current
  · dsimp only
    split
    · intro _ _ reused
      cases (reused_eq_some reused).2
      rfl
    · exact current

/-- A write to a temporary table moves no version, and the next join misses its row. -/
example :
    let kept := (hashJoinTable (.opened ∅) ⟨0, false, fun _ => true, none⟩
      ⟨"t", .all, 0, 1, .binary⟩).2
    (hashJoinTable ((Storage.opened ∅).putRow "t" 1 [.integer 7]) kept
      ⟨"t", .all, 0, 1, .binary⟩).1.rows = [] := by
  decide +kernel

end Cache

section

variable (current : site.cache.Current site.storage) (outerKey innerKey : Nat)
    (collation : Collation)

include current outerKey innerKey collation

theorem side_hash : site.side (.hash outerKey innerKey collation) =
      .hash (.build (site.stored.map site.view) innerKey site.width collation) outerKey :=
  congrArg (JoinInner.hash · outerKey) (hashJoinTable_eq current _)

theorem prepare_hash : (site.side (.hash outerKey innerKey collation)).prepare site.storage outer =
      .ok ((site.stored.filter (site.near (.hash outerKey innerKey collation) outer)).map
        site.view) := by
  rw [side_hash current, JoinInner.prepare, Except.ok.injEq]
  have isNear : site.near (.hash outerKey innerKey collation) outer = fun stored =>
      (outer[outerKey]?).any fun key => !key.isNull &&
        site.bucket collation key == site.bucket collation ((site.view stored).cell innerKey) := rfl
  rw [isNear]
  cases outer[outerKey]? with
  | none => simp [HashJoinTable.candidates]
  | some key =>
    by_cases isNull : key = .null
    · subst isNull
      simp [HashJoinTable.candidates, Value.isNull]
    · have small : site.bucket collation key <
          HashJoinTable.bucketsFor (site.stored.map site.view).length := by
        have := bucket_lt (HashJoinTable.bucketsFor site.stored.length - 1) collation key
        have positive : 16 ≤ HashJoinTable.bucketsFor site.stored.length := Nat.le_max_right _ _
        rw [length_map]
        unfold bucket
        omega
      have isBucket : HashJoinTable.bucket (HashJoinTable.build (site.stored.map site.view)
          innerKey site.width collation).mask collation key =
          site.bucket collation key := by
        simp [HashJoinTable.build, bucket]
      rw [candidates_some _ isNull]
      change HashJoinTable.run _ (HashJoinTable.bucket _ collation key) = _
      rw [isBucket, run_build _ _ _ _ _ small, List.filter_map, length_map]
      congr 1
      refine filter_congr fun stored _ => ?_
      rw [any_some, isNull_eq_false isNull, Bool.eq_iff_iff]
      simp only [Function.comp_apply, beq_iff_eq, Bool.not_false, Bool.true_and]
      exact eq_comm

end

theorem fetched_eq {ids : List RowId} (sorted : ids.Pairwise (· < ·)) (probed : IndexProbe)
    (isTable : probed.table = site.inner.name) (isMask : probed.mask = site.mask) :
    probed.fetched site.storage ids =
      (site.stored.filter fun stored => decide (stored.1 ∈ ids)).map site.view := by
  rw [IndexProbe.fetched, isTable, isMask, Storage.fetch_eq_filter sorted]
  rfl

theorem prepare_probe {outerKey : Nat} {ty : DataType} {collation : Collation} {kind : ProbeKind}
    (succeeds : ∀ key name, outer[outerKey]? = some key -> indexableProbe ty key = true ->
      kind = .index name -> ∃ range, KeyRange.equality name [key] [collation] = .ok range ∧
        (site.storage.scanIndexRowIds range).Nodup) :
    (site.side (.probe outerKey ty collation kind)).prepare site.storage outer =
      .ok ((site.stored.filter (site.near (.probe outerKey ty collation kind) outer)).map
        site.view) := by
  have isNear : site.near (.probe outerKey ty collation kind) outer = fun stored =>
      (outer[outerKey]?).any fun key => !key.isNull &&
        (!indexableProbe ty key || site.reached collation kind key stored.1) := rfl
  rw [side, joinInner, JoinInner.prepare, isNear]
  simp only
  cases isKey : outer[outerKey]? with
  | none => simp [IndexProbe.prepareKey]
  | some key =>
    by_cases isNull : key = .null
    · subst isNull
      simp [IndexProbe.prepareKey, Value.isNull]
    · have isPrepared : ∀ probed : IndexProbe, probed.prepareKey site.storage (some key) =
          if indexableProbe probed.ty key then probed.probe site.storage key
          else .ok (probed.fallBack site.storage) := by
        intro probed
        cases key <;> first | exact absurd rfl isNull | rfl
      rw [isPrepared]
      simp only [any_some, isNull_eq_false isNull, Bool.not_false, Bool.true_and]
      cases indexable : indexableProbe ty key with
      | false =>
        simp only [Bool.not_false, Bool.true_or, filter_true]
        rfl
      | true =>
        simp only [Bool.not_true, Bool.false_or, if_true]
        unfold IndexProbe.probe reached
        cases kind with
        | rowId =>
          simp only
          have sorted : (rowIdOf key).toList.Pairwise (· < ·) := by
            cases rowIdOf key with
            | none => exact List.Pairwise.nil
            | some id => exact pairwise_singleton _ _
          rw [fetched_eq sorted _ rfl rfl, Except.ok.injEq]
          congr 1
          refine filter_congr fun stored _ => ?_
          rw [Bool.eq_iff_iff, decide_eq_true_eq, Option.mem_toList, beq_iff_eq]
        | index name =>
          obtain ⟨range, isRange, nodup⟩ := succeeds key name isKey indexable rfl
          simp only [isRange, ok_bind]
          rw [fetched_eq (pairwise_sorted nodup) _ rfl rfl]
          change Except.ok _ = Except.ok _
          rw [Except.ok.injEq]
          congr 1
          refine filter_congr fun stored _ => ?_
          rw [Bool.eq_iff_iff, decide_eq_true_eq, decide_eq_true_eq, mem_mergeSort]

/-! ## Hashed keys -/

/-- The columns of a hash key: what they hold is of one storage class. -/
structure HashKey (site : JoinSite) (expr : Expr) (key : JoinKey) (ty : DataType) : Prop where
  isOn : site.on = some expr
  member : key ∈ collectJoinKeys site.offset site.width expr
  outerAffinity : site.scope.affinityAt key.outer = columnAffinity ty
  innerAffinity : site.scope.affinityAt (site.offset + key.inner) = columnAffinity ty
  outerClass : ∀ {outer : Row} {cell : Value}, site.OuterReady outer ->
    outer[key.outer]? = some cell -> cell ≠ .null -> OfClass ty cell
  innerClass : ∀ {stored : RowId × Row} {cell : Value}, stored ∈ site.stored ->
    (site.view stored)[key.inner]? = some cell -> cell ≠ .null -> OfClass ty cell

theorem hashKey_of_found (ready : site.Ready) {key : JoinKey}
    (found : hashJoinKey site.outers site.inner site.offset site.on = some key) :
    ∃ expr ty, HashKey site expr key ty := by
  obtain ⟨expr, column, isOn, member, isColumn, isClass, sameType⟩ := hashJoinKey_spec found
  have bounds := mem_collectJoinKeys member
  have isOuter : ∃ outerColumn, site.outerColumns[key.outer]? = some outerColumn :=
    ⟨_, getElem?_eq_getElem bounds.1⟩
  obtain ⟨outerColumn, isOuter⟩ := isOuter
  have same : outerColumn.ty = column.ty := (outerColumnType_eq isOuter).symm.trans sameType
  refine ⟨expr, column.ty, isOn, member, ?_, scope_inner isColumn, ?_, ?_⟩
  · rw [scope_outer isOuter, same]
  · intro outer cell outerReady isCell notNull
    have conforms := outerReady.conforms key.outer outerColumn cell isOuter isCell
    rw [same] at conforms
    exact .of_conforms isClass conforms notNull
  · intro stored cell isStored isCell notNull
    have isCell := getElem?_view isCell notNull
    exact .of_conforms isClass
      (ready.indexed.conforms stored isStored key.inner column cell isColumn isCell) notNull

namespace HashKey

variable {expr : Expr} {key : JoinKey} {ty : DataType} {stored : RowId × Row}

theorem compared (hashKey : HashKey site expr key ty) (ready : site.Ready)
    (outerReady : site.OuterReady outer) (isStored : stored ∈ site.stored)
    (admitted : site.admits outer (site.view stored) = true) :
    ∃ outerCell innerCell, outer[key.outer]? = some outerCell ∧
      (site.view stored)[key.inner]? = some innerCell ∧ outerCell ≠ .null ∧
      OfClass ty outerCell ∧ OfClass ty innerCell ∧
      Compared outerCell innerCell key.collation .eq := by
  obtain ⟨outerCell, innerCell, isOuter, isInner, outerNotNull, innerNotNull, compared⟩ :=
    equal_of_admits ready outerReady hashKey.isOn hashKey.member admitted
  have outerClass := hashKey.outerClass outerReady isOuter outerNotNull
  have innerClass := hashKey.innerClass isStored isInner innerNotNull
  rw [JoinKey.affinity, outerReady.wide, hashKey.outerAffinity, hashKey.innerAffinity,
    outerClass.converted, innerClass.converted] at compared
  exact ⟨outerCell, innerCell, isOuter, isInner, outerNotNull, outerClass, innerClass, compared⟩

theorem near_iff (hashKey : HashKey site expr key ty) (ready : site.Ready)
    (outerReady : site.OuterReady outer) (isStored : stored ∈ site.stored)
    (admitted : site.admits outer (site.view stored) = true) :
    site.near (.ofHash key) outer stored = true ↔ (outer.cell key.outer).isNanKey = false ∧
          ((site.view stored).cell key.inner).isNanKey = false ∨
        site.bucket key.collation (outer.cell key.outer) =
          site.bucket key.collation ((site.view stored).cell key.inner) := by
  obtain ⟨outerCell, innerCell, isOuter, isInner, notNull, outerClass, innerClass, compared⟩ :=
    hashKey.compared ready outerReady isStored admitted
  have isNear : site.near (.ofHash key) outer stored = true ↔
      site.bucket key.collation outerCell = site.bucket key.collation innerCell := by
    change (outer[key.outer]?).any _ = true ↔ _
    rw [isOuter, any_some, isNull_eq_false notNull, cell_of_getElem? isInner]
    simp
  rw [isNear, cell_of_getElem? isOuter, cell_of_getElem? isInner]
  constructor
  · exact .inr
  · rintro (⟨outerNumber, innerNumber⟩ | same)
    · rcases (outerClass.compared_iff innerClass key.collation).mp compared with isNan | isNan | same
      · rw [outerNumber] at isNan
        cases isNan
      · rw [innerNumber] at isNan
        cases isNan
      · rw [bucket, bucket, HashJoinTable.bucket, HashJoinTable.bucket,
          outerClass.hashValue_eq innerClass same]
    · exact same

/-- The rows the key test keeps of a bucket. -/
def matched (site : JoinSite) (key : JoinKey) (outer : Row) (stored : RowId × Row) : Bool :=
  match outer[key.outer]?, (site.view stored)[key.inner]? with
  | some outerCell, some innerCell => keysEqual outerCell innerCell key.collation
  | _, _ => false

theorem keysEqual_notNull {left right : Value} {collation : Collation}
    (same : keysEqual left right collation = true) : left ≠ .null ∧ right ≠ .null := by
  constructor
  · rintro rfl
    simp [keysEqual, Value.isNull] at same
  · rintro rfl
    simp [keysEqual, Value.isNull] at same

section

variable (hashKey : HashKey site expr key ty) (ready : site.Ready)
    (outerReady : site.OuterReady outer) (isStored : stored ∈ site.stored)

include hashKey ready outerReady isStored

theorem admits_of_matched (single : isSingleEquality site.on = true)
    (isMatched : matched site key outer stored = true) :
    site.admits outer (site.view stored) = true := by
  unfold matched at isMatched
  split at isMatched
  · rename_i outerCell innerCell isOuter isInner
    obtain ⟨outerNotNull, innerNotNull⟩ := keysEqual_notNull isMatched
    have planned := ready.planned expr hashKey.isOn
    have member := hashKey.member
    have innerAffinity := hashKey.innerAffinity
    rw [<- outerReady.wide] at member innerAffinity
    rw [admits, hashKey.isOn, all_some]
    rw [hashKey.isOn] at single
    cases expr with
    | binary op left right collation affinity =>
      cases op with
      | eq =>
        exact admits_of_keysEqual planned member isOuter isInner hashKey.outerAffinity
          innerAffinity (hashKey.outerClass outerReady isOuter outerNotNull)
          (hashKey.innerClass isStored isInner innerNotNull) isMatched
      | _ => cases single
    | _ => cases single
  · cases isMatched

theorem matched_iff (admitted : site.admits outer (site.view stored) = true) :
    (site.near (.ofHash key) outer stored && matched site key outer stored) = true ↔
      (outer.cell key.outer).isNanKey = false ∧
        ((site.view stored).cell key.inner).isNanKey = false := by
  have isNear := hashKey.near_iff ready outerReady isStored admitted
  obtain ⟨outerCell, innerCell, isOuter, isInner, notNull, outerClass, innerClass, compared⟩ :=
    hashKey.compared ready outerReady isStored admitted
  have isMatched : matched site key outer stored = keysEqual outerCell innerCell key.collation := by
    rw [matched, isOuter, isInner]
  rw [Bool.and_eq_true, isNear, isMatched, cell_of_getElem? isOuter, cell_of_getElem? isInner]
  constructor
  · rintro ⟨-, same⟩
    by_contra isNan
    rw [outerClass.not_keysEqual innerClass] at same
    · cases same
    · rw [not_and_or, Bool.not_eq_false, Bool.not_eq_false] at isNan
      exact isNan
  · rintro ⟨outerNumber, innerNumber⟩
    refine ⟨.inl ⟨outerNumber, innerNumber⟩, ?_⟩
    rcases (outerClass.compared_iff innerClass key.collation).mp compared with isNan | isNan | same
    · rw [outerNumber] at isNan
      cases isNan
    · rw [innerNumber] at isNan
      cases isNan
    · exact same

end

end HashKey

/-! ## Probed keys -/

section Probe

variable {key : JoinKey} {expr : Expr} {stored : RowId × Row}

variable {id : Nat} {collation : Collation}

theorem rowIdOfInt_eq_some {number : Int} : rowIdOfInt number = some id ↔ number = id := by
  unfold rowIdOfInt
  split
  · rw [Option.some.injEq]
    constructor
    · intro same
      rw [<- same, Int.toNat_of_nonneg ‹_›]
    · rintro rfl
      exact Int.toNat_natCast id
  · constructor
    · intro absent
      cases absent
    · rintro rfl
      exact absurd (Int.natCast_nonneg id) ‹_›

theorem asI64_eq_iff : asI64 id = id ↔ id < 2 ^ 63 := by
  unfold asI64
  split
  · simpa
  · simp only [sub_eq_self]
    constructor
    · intro wrong
      exact absurd wrong (by norm_num)
    · intro less
      contradiction

theorem natAbs_asI64_le (small : id < 2 ^ 64) : (asI64 id).natAbs ≤ 2 ^ 63 := by
  unfold asI64
  split
  · rename_i less
    rw [Int.natAbs_natCast]
    exact less.le
  · rename_i more
    have wide : ((2 : Int) ^ 64) = (18446744073709551616 : Nat) := by norm_num
    rw [wide]
    have more : ¬ id < 9223372036854775808 := more
    have small : id < 18446744073709551616 := small
    have bound : (2 : Nat) ^ 63 = 9223372036854775808 := by norm_num
    rw [bound]
    omega

theorem near_probe_iff {outerKey : Nat} {ty : DataType} {kind : ProbeKind} {cell : Value}
    (isCell : outer[outerKey]? = some cell) (notNull : cell ≠ .null) :
    site.near (.probe outerKey ty collation kind) outer stored = true ↔
      (indexableProbe ty cell = true -> site.reached collation kind cell stored.1 = true) := by
  change (outer[outerKey]?).any _ = true ↔ _
  rw [isCell, any_some, isNull_eq_false notNull]
  cases indexableProbe ty cell <;> simp

theorem near_rowId_iff (ready : site.Ready) (outerReady : site.OuterReady outer)
    (isStored : stored ∈ site.stored) (isOn : site.on = some expr)
    (member : key ∈ collectJoinKeys site.offset site.width expr)
    (isAlias : site.inner.rowidAlias = some key.inner) (collation : Collation)
    (admitted : site.admits outer (site.view stored) = true) :
    site.near (.probe key.outer .integer collation .rowId) outer stored = true ↔
      site.Keeps (.probe key.outer .integer collation .rowId) outer stored := by
  obtain ⟨outerCell, innerCell, isOuter, isInner, outerNotNull, innerNotNull, compared⟩ :=
    equal_of_admits ready outerReady isOn member admitted
  have isInner := getElem?_view isInner innerNotNull
  obtain rfl : innerCell = .integer (asI64 stored.1) := by
    rcases ready.indexed.aliased key.inner isAlias stored isStored innerCell isInner with null | same
    · exact absurd null innerNotNull
    · exact same
  have numeric : key.affinity site.scope outer.length = .numeric := by
    obtain ⟨inside, both, -⟩ := findIdx?_eq_some_iff_getElem.mp isAlias
    simp only [Bool.and_eq_true, beq_iff_eq] at both
    rw [JoinKey.affinity, outerReady.wide, scope_inner (getElem?_eq_getElem inside), both.2]
    unfold combineAffinity
    simp [columnAffinity, CastType.isNumeric]
  rw [numeric] at compared
  have innerSame : converted site.env .numeric (.integer (asI64 stored.1)) =
      .integer (asI64 stored.1) := rfl
  rw [innerSame, Compared.eq_iff] at compared
  rw [near_probe_iff isOuter outerNotNull, Keeps, cell_of_getElem? isOuter]
  have small : stored.1 < 2 ^ 64 := ready.indexed.ids stored isStored
  cases outerCell with
  | null => exact absurd rfl outerNotNull
  | text | blob | vector => exact ⟨fun _ => trivial, fun _ wrong => absurd wrong Bool.false_ne_true⟩
  | integer number =>
    have same : number = asI64 stored.1 := by
      rcases compared with compared | compared
      · exact compare_eq_iff_eq.mp (Except.ok.inj compared)
      · exact (compare_eq_iff_eq.mp (Except.ok.inj compared)).symm
    change (true = true -> (rowIdOfInt number == some stored.1) = true) ↔ stored.1 < 2 ^ 63
    rw [beq_iff_eq, rowIdOfInt_eq_some, same, asI64_eq_iff]
    exact ⟨fun reached => reached rfl, fun less _ => less⟩
  | real number =>
    by_cases isNan : number.isNan = true
    · have notIndexable : indexableProbe .integer (.real number) = false := by
        simp [indexableProbe, isNan]
      rw [notIndexable]
      exact ⟨fun _ => .inl isNan, fun _ wrong => absurd wrong Bool.false_ne_true⟩
    · have isNumber : number.isNan = false := by simpa using isNan
      have indexable : indexableProbe .integer (.real number) = true := by
        simp [indexableProbe, isNumber]
      have fits := natAbs_asI64_le small
      have same : (F64.ofInt (asI64 stored.1)).eq number = true := by
        have exact := (F64.signed_ofInt fits).1
        rcases compared with compared | compared
        · rcases F64.partialCmp_eq.mp (Except.ok.inj compared) with bad | bad | same
          · exact absurd bad isNan
          · rw [exact] at bad
            cases bad
          · rwa [F64.eq_comm]
        · rcases F64.partialCmp_eq.mp (Except.ok.inj compared) with bad | bad | same
          · rw [exact] at bad
            cases bad
          · exact absurd bad isNan
          · exact same
      have bound := number.toI64_lt
      rw [indexable]
      change (true = true -> ((if (F64.ofInt number.toI64).eq number then
        rowIdOfInt number.toI64 else none) == some stored.1) = true) ↔
          number.isNan = true ∨ number.toI64 = stored.1
      rw [isNumber, beq_iff_eq]
      constructor
      · intro reached
        have reached := reached rfl
        split at reached
        · exact .inr (rowIdOfInt_eq_some.mp reached)
        · cases reached
      · rintro (wrong | whole) _
        · cases wrong
        · have isId : asI64 stored.1 = number.toI64 := by
            rw [whole, asI64_eq_iff]
            rw [whole] at bound
            exact_mod_cast bound
          rw [<- isId, if_pos same, isId, rowIdOfInt_eq_some, whole]

theorem equality_single (name : String) {value : Value} {bytes : Bytes}
    (encoded : encodeValue collation value = .ok bytes) :
    KeyRange.equality name [value] [collation] = .ok (KeyRange.ofPrefix (indexPrefix name ++ bytes)) := by
  have one : encodeValues [collation] 0 [value] = .ok bytes := by
    rw [encodeValues]
    change (do return (<- encodeValue collation value) ++ (<- encodeValues [collation] 1 [])) = _
    rw [encoded, ok_bind]
    change Except.ok (bytes ++ []) = _
    rw [append_nil]
  rw [KeyRange.equality, probePrefix, one, ok_bind]
  rfl

theorem inside_equality {index : Index} {bytes key : Bytes}
    (contains : (KeyRange.ofPrefix (indexPrefix index.name ++ bytes)).contains key = true) :
    indexPrefix index.name <+: key :=
  indexPrefix_of_contains contains

/-- The index of a probe: it leads with the column of the key, under its collation. -/
structure IndexKey (site : JoinSite) (expr : Expr) (key : JoinKey) (index : Index) (ty : DataType) :
    Prop where
  isOn : site.on = some expr
  member : key ∈ collectJoinKeys site.offset site.width expr
  isIndex : index ∈ site.catalog.indexesFor site.inner.name
  leads : leadsWith site.inner key index = true
  isClass : ty.isStorageClass = true
  column : ∃ column, site.inner.columns[key.inner]? = some column ∧ column.ty = ty

namespace IndexKey

variable {index : Index} {ty : DataType}

section

variable (indexKey : IndexKey site expr key index ty)

include indexKey

theorem isBtree : index.kind = .btree := by
  have leads := indexKey.leads
  simp only [leadsWith, Bool.and_eq_true, beq_iff_eq] at leads
  exact leads.1.1

theorem collation_eq : index.collation 0 = key.collation := by
  have leads := indexKey.leads
  simp only [leadsWith, Bool.and_eq_true, beq_iff_eq] at leads
  exact leads.2

theorem leading :
    ∃ column, (index.columns[0]?).bind site.inner.column = some (key.inner, column) := by
  have leads := indexKey.leads
  simp only [leadsWith, Bool.and_eq_true, beq_iff_eq, Option.any_eq_true] at leads
  obtain ⟨⟨-, ⟨ordinal, column⟩, found, same⟩, -⟩ := leads
  exact ⟨column, by rw [found, <- same]⟩

section

variable (ready : site.Ready) (isStored : stored ∈ site.stored)

include ready isStored

theorem entry_eq : ∃ entry bytes rest, indexEntry site.inner index stored = .ok entry ∧
      encodeValue key.collation (stored.2.cell key.inner) = .ok bytes ∧
      entry = indexPrefix index.name ++ (bytes ++ rest) := by
  obtain ⟨ordinals, isOrdinals⟩ :=
    ready.indexed.columns index indexKey.isIndex indexKey.isBtree
  obtain ⟨entry, -, isEntry⟩ :=
    ready.indexed.present index indexKey.isIndex indexKey.isBtree stored isStored
  obtain ⟨whole, isWhole, rfl⟩ := indexEntry_eq_ok isOrdinals isEntry
  obtain ⟨column, isLeading⟩ := indexKey.leading
  obtain ⟨name, isName, isColumn⟩ := bind_eq_some_iff.mp isLeading
  have isHead : ∃ others, ordinals = key.inner :: others := by
    obtain ⟨names, isColumns⟩ : ∃ names, index.columns = name :: names := by
      cases isColumns : index.columns with
      | nil => rw [isColumns] at isName; cases isName
      | cons first names =>
        rw [isColumns] at isName
        exact ⟨names, by rw [Option.some.inj isName]⟩
    rw [indexOrdinals, isColumns, mapM_cons] at isOrdinals
    have required : site.inner.requireColumn name = .ok (key.inner, column) := by
      rw [Table.requireColumn, isColumn]
    obtain ⟨first, isFirst, isOrdinals⟩ := bind_eq_ok isOrdinals
    obtain ⟨others, -, isOrdinals⟩ := bind_eq_ok isOrdinals
    rw [required, ok_bind] at isFirst
    have isKey : key.inner = first := Except.ok.inj isFirst
    exact ⟨others, by rw [<- Except.ok.inj isOrdinals, isKey]⟩
  obtain ⟨others, rfl⟩ := isHead
  rw [map_cons] at isWhole
  obtain ⟨bytes, rest, isBytes, -, rfl⟩ := encodeValues_cons isWhole
  refine ⟨_, bytes, rest ++ beBytes 8 stored.1, isEntry, ?_, by simp⟩
  rw [<- indexKey.collation_eq]
  exact isBytes

theorem reached_iff {value : Value} {valueBytes cellBytes : Bytes}
    (isValue : encodeValue key.collation value = .ok valueBytes)
    (isCell : encodeValue key.collation (stored.2.cell key.inner) = .ok cellBytes)
    (apart : valueBytes = cellBytes ∨ Below valueBytes cellBytes ∨ Below cellBytes valueBytes) :
    site.reached key.collation (.index index.name) value stored.1 = true ↔
      valueBytes = cellBytes := by
  obtain ⟨entry, bytes, rest, isEntry, isBytes, rfl⟩ := indexKey.entry_eq ready isStored
  obtain rfl := Except.ok.inj (isBytes.symm.trans isCell)
  rw [reached]
  simp only [equality_single index.name isValue, decide_eq_true_eq]
  rw [ready.indexed.mem_scanIndexRowIds indexKey.isIndex indexKey.isBtree
    (fun _ contains => inside_equality contains) isStored isEntry]
  constructor
  · intro contains
    have within := @KeyRange.isPrefix_of_contains _ _ 0 (by simp [indexPrefix]) (by decide) contains
    have within := (prefix_append_right_inj _).mp within
    rcases apart with same | below | below
    · exact same
    · exact absurd within (below.not_isPrefix rest).1
    · exact absurd within (below.not_isPrefix rest).2
  · rintro rfl
    exact KeyRange.contains_ofPrefix ⟨rest, by simp⟩

end

theorem near_iff (ready : site.Ready) (outerReady : site.OuterReady outer)
    (isStored : stored ∈ site.stored) (admitted : site.admits outer (site.view stored) = true) :
    site.near (.probe key.outer ty key.collation (.index index.name)) outer stored = true ↔
      site.Keeps (.probe key.outer ty key.collation (.index index.name)) outer stored := by
  obtain ⟨outerCell, innerCell, isOuter, isInner, outerNotNull, innerNotNull, compared⟩ :=
    equal_of_admits ready outerReady indexKey.isOn indexKey.member admitted
  have isStoredCell := getElem?_view isInner innerNotNull
  obtain ⟨column, isColumn, rfl⟩ := indexKey.column
  have innerClass : OfClass column.ty innerCell := .of_conforms indexKey.isClass
    (ready.indexed.conforms stored isStored key.inner column innerCell isColumn isStoredCell)
    innerNotNull
  obtain ⟨-, cellBytes, -, -, isCell, -⟩ := indexKey.entry_eq ready isStored
  have outerFits := outerReady.fits outerCell (mem_of_getElem? isOuter)
  have innerFits := ready.indexed.fits stored isStored innerCell (mem_of_getElem? isStoredCell)
  -- The leading column is that of the key, whichever index the name is looked up as.
  have isLeading : ∀ ordinal, site.leads index.name ordinal ↔ ordinal = key.inner := by
    intro ordinal
    obtain ⟨leading, isLeading⟩ := indexKey.leading
    constructor
    · rintro ⟨other, isOther, sameName, _, found⟩
      obtain rfl := ready.named index indexKey.isIndex other isOther sameName.symm
      rw [isLeading] at found
      exact (Prod.ext_iff.mp (Option.some.inj found)).1.symm
    · rintro rfl
      exact ⟨index, indexKey.isIndex, rfl, leading, isLeading⟩
  have keeps : site.Keeps (.probe key.outer column.ty key.collation (.index index.name)) outer
      stored ↔ ∀ text other, outerCell = .text text -> innerCell = .text other ->
        key.collation.fold (utf8 text) = key.collation.fold (utf8 other) := by
    unfold Keeps
    simp only [isLeading, forall_eq, cell_of_getElem? isOuter, cell_of_getElem? isInner]
  rw [near_probe_iff isOuter outerNotNull, keeps]
  have reached : ∀ {valueBytes : Bytes}, encodeValue key.collation outerCell = .ok valueBytes ->
      (valueBytes = cellBytes ∨ Below valueBytes cellBytes ∨ Below cellBytes valueBytes) ->
      (site.reached key.collation (.index index.name) outerCell stored.1 = true ↔
        valueBytes = cellBytes) :=
    fun isValue apart => indexKey.reached_iff ready isStored isValue isCell apart
  rw [cell_of_getElem? isStoredCell] at isCell
  -- A number or a blob is encoded as it is compared; only texts may be converted.
  have unconverted : indexableProbe column.ty outerCell = true ->
      converted site.env (key.affinity site.scope outer.length) outerCell = outerCell ->
      converted site.env (key.affinity site.scope outer.length) innerCell = innerCell ->
      site.reached key.collation (.index index.name) outerCell stored.1 = true := by
    intro indexable sameOuter sameInner
    rw [sameOuter, sameInner, Compared.eq_iff] at compared
    obtain ⟨valueBytes, isValue⟩ := encodeValue_of_indexable outerFits indexable key.collation
    have same : valueBytes = cellBytes := by
      rcases compared with compared | compared
      · exact encodeValue_encoded outerFits innerFits isValue isCell compared
      · exact Eq.symm (encodeValue_encoded innerFits outerFits isCell isValue compared)
    exact (reached isValue (.inl same)).mpr same
  have numeric : column.ty = .integer ∨ column.ty = .real ->
      key.affinity site.scope outer.length = .numeric := by
    intro isNumeric
    rw [JoinKey.affinity, outerReady.wide, scope_inner isColumn]
    unfold combineAffinity
    rcases isNumeric with isNumeric | isNumeric <;>
      simp [isNumeric, columnAffinity, CastType.isNumeric]
  generalize isTy : column.ty = ty at innerClass unconverted numeric
  cases innerClass with
  | integer number | real number =>
    refine ⟨(fun _ _ _ _ wrong => nomatch wrong), fun _ indexable => ?_⟩
    refine unconverted indexable ?_ ?_
    · rw [numeric (by simp)]
      cases outerCell <;> first | rfl | cases indexable
    · rw [numeric (by simp)]
      rfl
  | blob bytes =>
    refine ⟨(fun _ _ _ _ wrong => nomatch wrong), fun _ indexable => ?_⟩
    have isBlob : ∃ others, outerCell = .blob others := by
      cases outerCell <;> first | exact ⟨_, rfl⟩ | cases indexable
    obtain ⟨others, rfl⟩ := isBlob
    exact unconverted indexable (by cases key.affinity site.scope outer.length <;> rfl)
      (by cases key.affinity site.scope outer.length <;> rfl)
  | text other =>
    cases outerCell with
    | text text =>
      obtain rfl := Except.ok.inj isCell
      have isReached := reached rfl (by
        rcases (encodeBytes_encoded (key.collation.fold (utf8 text))
          (key.collation.fold (utf8 other))).apart with same | below | below
        · exact .inl (congrArg _ same)
        · exact .inr (.inl (below.cons 3))
        · exact .inr (.inr (below.cons 3)))
      constructor
      · intro isNear _ _ isText isOther
        cases isText
        cases isOther
        have sameBytes := isReached.mp (isNear rfl)
        exact encodeBytes_injective (List.cons.inj sameBytes).2
      · intro same _
        rw [isReached, same text other rfl rfl]
    | null => exact absurd rfl outerNotNull
    | integer | real | blob | vector =>
      exact ⟨(fun _ _ _ wrong _ => nomatch wrong), (fun _ wrong => nomatch wrong)⟩

end

end IndexKey

end Probe

end JoinSite

end InlaySql.Sql
