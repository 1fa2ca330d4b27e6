import InlaySql.Btree.Cohort
import InlaySql.Lib.Segments
import InlaySql.Sql.Catalog

/-!
# The key namespaces of one tree

Rows, index entries, metadata, change records and the free list share one ordered
map. A key is either a metadata name behind a zero byte or starts with a namespace
and a zero byte; namespaces and names are built from identifiers and punctuation. The
module says for which identifiers no two objects share a key.
-/

namespace InlaySql.Sql

open List Lib

/-! ## The keys -/

/-- `table_prefix`: what every row key of a table starts with. -/
def tablePrefix (table : String) : Bytes := utf8 (lower table) ++ [0]

def rowKey (table : String) (id : RowId) : Bytes := tablePrefix table ++ beBytes 8 id

def metaKey (name : String) : Bytes := 0 :: utf8 name

/-- The columns of a key, lowercased, each followed by a separator. -/
def joinColumns (separator : Char) (columns : List String) : String :=
  String.ofList (terminated separator (columns.map fun column => (lower column).toList))

/-- `index_meta_key_for`: one column keeps the plain spelling. -/
def indexMetaKeyFor (table : String) : List String -> String
  | [column] => "index:" ++ lower table ++ ":" ++ lower column
  | columns => "index:" ++ lower table ++ ":\x02" ++ joinColumns '\x02' columns

def indexChunkKey (base : String) (chunk : Nat) : String := base ++ "/" ++ toString chunk

def vectorIndexNamespace (table column : String) : String :=
  "\x01ann:" ++ lower table ++ "." ++ lower column

def fullTextIndexNamespace (table : String) (columns : List String) : String :=
  "\x01fts:" ++ lower table ++ "\x01" ++ joinColumns '\x01' columns

/-- `header_key` of a paged index. -/
def headerKey (space : String) : String := space ++ ":header"

/-- `record_key` of the change log. -/
def recordKey (version : Nat) : String :=
  "cdc:" ++ String.ofList ((Btree.hexDigits 16 version).map fun byte => Char.ofNat byte.toNat)

/-- The metadata with a fixed name. -/
inductive Metadata where
  | catalog
  | nextRowId
  | writeVersion
  | schemaVersion
  | cdcFloor
  | plannerStats
  deriving DecidableEq, Repr

def Metadata.name : Metadata -> String
  | .catalog => "catalog"
  | .nextRowId => "next_row_id"
  | .writeVersion => "write_version"
  | .schemaVersion => "schema_version"
  | .cdcFloor => "cdc_floor"
  | .plannerStats => "planner_stats"

/-- What keeps keys of its own in the tree. -/
inductive StoredObject where
  | rows (table : String)
  | metadata (which : Metadata)
  | btreeIndex (name : String)
  | savedIndex (table : String) (columns : List String)
  | pagedVector (table column : String)
  | pagedText (table : String) (columns : List String)
  | changeLog
  | freeList
  deriving DecidableEq, Repr

namespace StoredObject

/-- The object with its names in lower case: names that differ in case are one name. -/
def lowered : StoredObject -> StoredObject
  | .rows table => .rows (lower table)
  | .metadata which => .metadata which
  | .btreeIndex name => .btreeIndex (lower name)
  | .savedIndex table columns => .savedIndex (lower table) (columns.map lower)
  | .pagedVector table column => .pagedVector (lower table) (lower column)
  | .pagedText table columns => .pagedText (lower table) (columns.map lower)
  | .changeLog => .changeLog
  | .freeList => .freeList

/-- The metadata names an object uses. -/
def OwnsName : StoredObject -> String -> Prop
  | .metadata which, name => name = which.name
  | .savedIndex table columns, name =>
    name = indexMetaKeyFor table columns ∨
      ∃ chunk, name = indexChunkKey (indexMetaKeyFor table columns) chunk
  | .pagedVector table column, name => name = headerKey (vectorIndexNamespace table column)
  | .pagedText table columns, name => name = headerKey (fullTextIndexNamespace table columns)
  | .changeLog, name => ∃ version, name = recordKey version
  | _, _ => False

/-- The namespaces whose whole range an object scans. -/
def OwnsSpace : StoredObject -> String -> Prop
  | .rows table, space => space = lower table
  | .btreeIndex name, space => space = "\x01idx:" ++ lower name
  | .pagedVector table column, space => space = vectorIndexNamespace table column
  | .pagedText table columns, space =>
    ∃ suffix ∈ ["", "\x01d", "\x01x", "\x01p"],
      space = fullTextIndexNamespace table columns ++ suffix
  | .freeList, space => space = "\x02free"
  | _, _ => False

/-- The keys of an object: its metadata keys and every key of the ranges it scans. -/
def Owns (object : StoredObject) (key : Bytes) : Prop :=
  (∃ name, object.OwnsName name ∧ key = metaKey name) ∨
    ∃ space, object.OwnsSpace space ∧ tablePrefix space <+: key

end StoredObject

/-! ## Lower case and UTF-8 -/

variable {name : String} {c : Char} {table : String} {columns others : List String}
  {tail part : List Char}

theorem mem_of_mem_lower (noLetter : c.toNat < 97) (member : c ∈ (lower name).toList) :
    c ∈ name.toList := by
  rw [toList_lower, mem_map] at member
  obtain ⟨before, member, rfl⟩ := member
  rcases toLower_cases before with same | ⟨low, -⟩
  · rwa [same]
  · omega

theorem utf8_injective : Function.Injective utf8 := by
  intro left right same
  have encoded : left.toList.utf8Encode = right.toList.utf8Encode := by
    unfold List.utf8Encode
    exact congrArg List.toByteArray same
  rw [<- String.toByteArray_inj]
  simpa using encoded

theorem zero_notMem_utf8EncodeChar (ne : c ≠ '\x00') : 0 ∉ String.utf8EncodeChar c := by
  have positive : c.val.toNat ≠ 0 := by
    intro zero
    apply ne
    apply Char.ext
    apply UInt32.toNat_inj.mp
    simpa using zero
  fun_cases String.utf8EncodeChar
  all_goals
    simp only [mem_cons, not_mem_nil, or_false, <- UInt8.toNat_inj, UInt8.toNat_ofNat']
    simp
    omega

theorem zero_notMem_utf8 (free : '\x00' ∉ name.toList) : 0 ∉ utf8 name := by
  rw [utf8, mem_flatMap]
  rintro ⟨c, member, zero⟩
  exact zero_notMem_utf8EncodeChar (fun same => free (same ▸ member)) zero

/-! ## Namespaces and names that identify their object -/

theorem lower_eq_of_tablePrefix {space other : String} {key : Bytes}
    (free : '\x00' ∉ (lower space).toList) (otherFree : '\x00' ∉ (lower other).toList)
    (left : tablePrefix space <+: key) (right : tablePrefix other <+: key) :
    lower space = lower other := by
  obtain ⟨rest, rfl⟩ := left
  obtain ⟨more, same⟩ := right
  rw [tablePrefix, tablePrefix, append_assoc, append_assoc] at same
  exact utf8_injective (append_cons_inj (zero_notMem_utf8 free) (zero_notMem_utf8 otherFree)
    same.symm).1

theorem not_tablePrefix_metaKey {space : String} (ne : lower space ≠ "")
    (free : '\x00' ∉ (lower space).toList) : ¬ tablePrefix space <+: metaKey name := by
  rintro ⟨rest, same⟩
  rw [tablePrefix, append_assoc, metaKey] at same
  have cut : [] ++ 0 :: utf8 name = utf8 (lower space) ++ 0 :: rest := same.symm
  have empty := (append_cons_inj (by simp) (zero_notMem_utf8 free) cut).1
  exact ne (utf8_injective (by simpa [utf8] using empty.symm))

/-- The identifiers in use: the characters they are spelled with, and whether the empty
name is one of them. -/
structure Naming where
  alphabet : Set Char
  blank : Prop

namespace Naming

variable (naming : Naming)

def Admits (name : String) : Prop :=
  (∀ c ∈ name.toList, c ∈ naming.alphabet) ∧ (name = "" -> naming.blank)

/-- The objects whose identifiers are in use. -/
def AdmitsObject : StoredObject -> Prop
  | .rows table => naming.Admits table
  | .btreeIndex name => naming.Admits name
  | .savedIndex table columns | .pagedText table columns =>
    naming.Admits table ∧ columns ≠ [] ∧ ∀ column ∈ columns, naming.Admits column
  | .pagedVector table column => naming.Admits table ∧ naming.Admits column
  | .metadata _ | .changeLog | .freeList => True

/-- No empty name, none of the characters the keys are punctuated with, and not both the
slash and a digit of a chunk number. -/
structure Safe : Prop where
  named : ¬ naming.blank
  zero : '\x00' ∉ naming.alphabet
  one : '\x01' ∉ naming.alphabet
  two : '\x02' ∉ naming.alphabet
  colon : ':' ∉ naming.alphabet
  dot : '.' ∉ naming.alphabet
  chunk : ¬ ('/' ∈ naming.alphabet ∧ ∃ digit ∈ naming.alphabet, digit.isDigit = true)

end Naming

/-- A lowered identifier that can be read back from a key. -/
structure Clean (name : List Char) : Prop where
  ne : name ≠ []
  zero : '\x00' ∉ name
  one : '\x01' ∉ name
  two : '\x02' ∉ name
  colon : ':' ∉ name
  dot : '.' ∉ name
  chunk : ¬ ('/' ∈ name ∧ ∃ digit ∈ name, digit.isDigit = true)

theorem Naming.Admits.clean {naming : Naming} (admits : naming.Admits name) (safe : naming.Safe) :
    Clean (lower name).toList := by
  have spelled : ∀ c : Char, c.toNat < 97 -> c ∈ (lower name).toList -> c ∈ naming.alphabet :=
    fun c small member => admits.1 c (mem_of_mem_lower small member)
  refine ⟨?_, fun h => safe.zero (spelled _ (by decide) h),
    fun h => safe.one (spelled _ (by decide) h), fun h => safe.two (spelled _ (by decide) h),
    fun h => safe.colon (spelled _ (by decide) h), fun h => safe.dot (spelled _ (by decide) h), ?_⟩
  · rw [toList_lower]
    intro empty
    exact safe.named (admits.2 (by simpa using empty))
  · rintro ⟨slash, digit, member, isDigit⟩
    refine safe.chunk ⟨spelled _ (by decide) slash, digit, spelled _ ?_ member, isDigit⟩
    simp only [Char.isDigit, Bool.and_eq_true, decide_eq_true_eq, UInt32.le_iff_toNat_le] at isDigit
    have high := isDigit.2
    simp at high
    omega

/-- Everything an object's names promise once they are lowered. -/
def StoredObject.Clean : StoredObject -> Prop
  | .rows table => Sql.Clean (lower table).toList
  | .btreeIndex name => Sql.Clean (lower name).toList
  | .savedIndex table columns | .pagedText table columns =>
    Sql.Clean (lower table).toList ∧ columns ≠ [] ∧
      ∀ column ∈ columns, Sql.Clean (lower column).toList
  | .pagedVector table column => Sql.Clean (lower table).toList ∧ Sql.Clean (lower column).toList
  | .metadata _ | .changeLog | .freeList => True

theorem Naming.AdmitsObject.clean {naming : Naming} {object : StoredObject}
    (admits : naming.AdmitsObject object) (safe : naming.Safe) : object.Clean := by
  cases object with
  | rows table => exact Naming.Admits.clean admits safe
  | btreeIndex name => exact Naming.Admits.clean admits safe
  | savedIndex table columns =>
    exact ⟨admits.1.clean safe, admits.2.1, fun column member =>
      (admits.2.2 column member).clean safe⟩
  | pagedText table columns =>
    exact ⟨admits.1.clean safe, admits.2.1, fun column member =>
      (admits.2.2 column member).clean safe⟩
  | pagedVector table column => exact ⟨admits.1.clean safe, admits.2.clean safe⟩
  | metadata _ | changeLog | freeList => trivial

namespace StoredObject

/-- The kind of an object. -/
def kind : StoredObject -> Nat
  | .rows _ => 0
  | .metadata _ => 1
  | .btreeIndex _ => 2
  | .savedIndex _ _ => 3
  | .pagedVector _ _ => 4
  | .pagedText _ _ => 5
  | .changeLog => 6
  | .freeList => 7

/-- The kind of object a namespace belongs to, read off its first characters. -/
def spaceKind : List Char -> Nat
  | '\x01' :: 'i' :: _ => 2
  | '\x01' :: 'a' :: _ => 4
  | '\x01' :: 'f' :: _ => 5
  | '\x02' :: _ => 7
  | _ => 0

/-- The kind of object a metadata name belongs to. -/
def nameKind : List Char -> Nat
  | 'i' :: _ => 3
  | 'c' :: 'd' :: 'c' :: ':' :: _ => 6
  | '\x01' :: 'a' :: _ => 4
  | '\x01' :: 'f' :: _ => 5
  | _ => 1

theorem spaceKind_of_clean {name : List Char} (clean : Sql.Clean name) : spaceKind name = 0 := by
  unfold spaceKind
  split
  · exact absurd mem_cons_self clean.one
  · exact absurd mem_cons_self clean.one
  · exact absurd mem_cons_self clean.one
  · exact absurd mem_cons_self clean.two
  · rfl

theorem toList_vectorIndexNamespace (table column : String) :
    (vectorIndexNamespace table column).toList =
      "\x01ann:".toList ++ ((lower table).toList ++ '.' :: (lower column).toList) := by
  simp [vectorIndexNamespace]

theorem toList_fullTextIndexNamespace (table : String) (columns : List String) :
    (fullTextIndexNamespace table columns).toList = "\x01fts:".toList ++
      terminated '\x01' ((lower table).toList :: columns.map fun column => (lower column).toList) := by
  simp [fullTextIndexNamespace, joinColumns]

variable {object : StoredObject}

theorem OwnsSpace.kind {space : String} (owns : object.OwnsSpace space) (clean : object.Clean) :
    spaceKind space.toList = object.kind := by
  cases object with
  | rows table =>
    obtain rfl : space = lower table := owns
    exact spaceKind_of_clean clean
  | btreeIndex name =>
    obtain rfl : space = "\x01idx:" ++ lower name := owns
    rw [String.toList_append]
    rfl
  | pagedVector table column =>
    obtain rfl : space = vectorIndexNamespace table column := owns
    rw [toList_vectorIndexNamespace]
    rfl
  | pagedText table columns =>
    obtain ⟨suffix, -, rfl⟩ := owns
    rw [String.toList_append, toList_fullTextIndexNamespace]
    rfl
  | freeList =>
    obtain rfl : space = "\x02free" := owns
    rfl
  | metadata _ | savedIndex _ _ | changeLog => exact owns.elim

theorem OwnsName.kind {name : String} (owns : object.OwnsName name) :
    nameKind name.toList = object.kind := by
  cases object with
  | metadata which =>
    obtain rfl : name = which.name := owns
    cases which <;> rfl
  | savedIndex table columns =>
    have starts : ∃ rest, (indexMetaKeyFor table columns).toList = "index:".toList ++ rest := by
      unfold indexMetaKeyFor
      split <;> simp
    obtain ⟨rest, isRest⟩ := starts
    rcases owns with rfl | ⟨chunk, rfl⟩
    · rw [isRest]
      rfl
    · rw [indexChunkKey, String.toList_append, String.toList_append, isRest]
      rfl
  | pagedVector table column =>
    obtain rfl : name = headerKey (vectorIndexNamespace table column) := owns
    rw [headerKey, String.toList_append, toList_vectorIndexNamespace]
    rfl
  | pagedText table columns =>
    obtain rfl : name = headerKey (fullTextIndexNamespace table columns) := owns
    rw [headerKey, String.toList_append, toList_fullTextIndexNamespace]
    rfl
  | changeLog =>
    obtain ⟨version, rfl⟩ := owns
    rw [recordKey, String.toList_append]
    rfl
  | rows _ | btreeIndex _ | freeList => exact owns.elim

end StoredObject

theorem lower_eq_of_toList {left right : String} (same : (lower left).toList = (lower right).toList) :
    lower left = lower right := String.toList_injective same

theorem map_lower_eq_of_toList {left right : List String}
    (same : (left.map fun column => (lower column).toList) =
      right.map fun column => (lower column).toList) : left.map lower = right.map lower := by
  have toLists : (left.map lower).map String.toList = (right.map lower).map String.toList := by
    simpa [Function.comp_def] using same
  exact map_injective_iff.mpr (fun _ _ => String.toList_injective) toLists

theorem vectorIndexNamespace_inj {column otherTable otherColumn : String}
    (clean : Clean (lower table).toList) (otherClean : Clean (lower otherTable).toList)
    (same : vectorIndexNamespace table column = vectorIndexNamespace otherTable otherColumn) :
    lower table = lower otherTable ∧ lower column = lower otherColumn := by
  have chars := congrArg String.toList same
  rw [StoredObject.toList_vectorIndexNamespace, StoredObject.toList_vectorIndexNamespace,
    append_cancel_left_eq] at chars
  obtain ⟨tables, columns⟩ := append_cons_inj clean.dot otherClean.dot chars
  exact ⟨lower_eq_of_toList tables, lower_eq_of_toList columns⟩

/-- The table and the columns of a full-text namespace, whatever follows it. Derived
namespaces add an empty segment, which no column is. -/
theorem fullTextIndexNamespace_inj {other : String} {extra more : List (List Char)}
    {rest : List Char} (clean : Clean (lower table).toList)
    (otherClean : Clean (lower other).toList)
    (columnsClean : ∀ column ∈ columns, Clean (lower column).toList)
    (othersClean : ∀ column ∈ others, Clean (lower column).toList)
    (extraFree : ∀ segment ∈ extra, '\x01' ∉ segment)
    (moreFree : ∀ segment ∈ more, '\x01' ∉ segment) (restFree : '\x01' ∉ rest)
    (tailFree : '\x01' ∉ tail) (lengths : rest = tail -> extra.length = more.length)
    (same : (fullTextIndexNamespace table columns).toList ++ (terminated '\x01' extra ++ rest) =
      (fullTextIndexNamespace other others).toList ++ (terminated '\x01' more ++ tail)) :
    lower table = lower other ∧ columns.map lower = others.map lower := by
  rw [StoredObject.toList_fullTextIndexNamespace, StoredObject.toList_fullTextIndexNamespace,
    append_assoc, append_assoc, append_cancel_left_eq, <- append_assoc,
    <- append_assoc] at same
  have joined : ∀ left right : List (List Char),
      terminated '\x01' left ++ terminated '\x01' right = terminated '\x01' (left ++ right) :=
    fun left right => (flatMap_append).symm
  rw [joined, joined] at same
  have segmentFree : ∀ {table : String} {columns : List String} {extra : List (List Char)},
      Clean (lower table).toList -> (∀ column ∈ columns, Clean (lower column).toList) ->
      (∀ segment ∈ extra, '\x01' ∉ segment) -> ∀ segment ∈ (lower table).toList ::
        columns.map (fun column => (lower column).toList) ++ extra, '\x01' ∉ segment := by
    intro table columns extra clean columnsClean extraFree segment member
    simp only [cons_append, mem_cons, mem_append, mem_map] at member
    rcases member with rfl | ⟨column, member, rfl⟩ | member
    · exact clean.one
    · exact (columnsClean column member).one
    · exact extraFree segment member
  obtain ⟨segments, rests⟩ := terminated_append_inj (segmentFree clean columnsClean extraFree)
    (segmentFree otherClean othersClean moreFree) restFree tailFree same
  obtain ⟨heads, -⟩ := append_inj' segments (lengths rests)
  simp only [List.cons.injEq] at heads
  exact ⟨lower_eq_of_toList heads.1, map_lower_eq_of_toList heads.2⟩

/-! ## Saved indexes -/

/-- The part of a saved index key that names its columns. -/
def columnPart : List String -> List Char
  | [column] => (lower column).toList
  | columns => '\x02' :: terminated '\x02' (columns.map fun column => (lower column).toList)

/-- What a chunk key adds to its index key. -/
def ChunkPart (part : List Char) : Prop :=
  part = [] ∨ ∃ chunk : Nat, part = '/' :: (toString chunk).toList

theorem toList_indexMetaKeyFor (table : String) (columns : List String) :
    (indexMetaKeyFor table columns).toList =
      "index:".toList ++ ((lower table).toList ++ ':' :: columnPart columns) := by
  unfold indexMetaKeyFor columnPart
  split <;> simp [joinColumns]

theorem isDigit_of_mem_toString {number : Nat} (member : c ∈ (toString number).toList) :
    c.isDigit = true := by
  have digits : c ∈ Nat.toDigits 10 number := by simpa using member
  exact Nat.isDigit_of_mem_toDigits (by decide) (by decide) digits

theorem ChunkPart.free (chunk : ChunkPart part) (special : c ≠ '/' ∧ c.isDigit = false) :
    c ∉ part := by
  intro member
  rcases chunk with rfl | ⟨number, rfl⟩
  · cases member
  · rcases mem_cons.mp member with slash | digit
    · exact special.1 slash
    · rw [isDigit_of_mem_toString digit] at special
      cases special.2

theorem StoredObject.OwnsName.saved (owns : (StoredObject.savedIndex table columns).OwnsName name) :
    ∃ part, ChunkPart part ∧ name.toList =
      "index:".toList ++ ((lower table).toList ++ ':' :: (columnPart columns ++ part)) := by
  rcases owns with rfl | ⟨chunk, rfl⟩
  · exact ⟨[], .inl rfl, by rw [toList_indexMetaKeyFor, append_nil]⟩
  · refine ⟨_, .inr ⟨chunk, rfl⟩, ?_⟩
    rw [indexChunkKey, String.toList_append, String.toList_append, toList_indexMetaKeyFor]
    simp

theorem column_append_chunk_inj {column other : List Char} (clean : Clean column)
    (otherClean : Clean other) (chunk : ChunkPart part) (otherChunk : ChunkPart tail)
    (same : column ++ part = other ++ tail) : column = other := by
  have slashFree : ∀ number : Nat, '/' ∉ (toString number).toList := by
    intro number member
    have digit := isDigit_of_mem_toString member
    revert digit
    decide
  -- A chunk number ends in a digit, so a column that spells one has both characters.
  have noChunk : ∀ {column other : List Char} {number : Nat}, Clean column ->
      column ≠ other ++ '/' :: (toString number).toList := by
    rintro column other number clean rfl
    obtain ⟨digit, member⟩ : ∃ digit, digit ∈ (toString number).toList := by
      apply exists_mem_of_ne_nil
      rw [Nat.toString_eq_repr]
      simp [Nat.repr]
    exact clean.chunk ⟨by simp, digit,
      mem_append_right _ (mem_cons_of_mem _ member), isDigit_of_mem_toString member⟩
  rcases chunk with rfl | ⟨number, rfl⟩ <;> rcases otherChunk with rfl | ⟨otherNumber, rfl⟩
  · simpa using same
  · rw [append_nil] at same
    exact absurd same (noChunk clean)
  · rw [append_nil] at same
    exact absurd same.symm (noChunk otherClean)
  · have reversed := congrArg List.reverse same
    simp only [reverse_append, reverse_cons, append_assoc, singleton_append] at reversed
    have split := append_cons_inj (by simpa using slashFree number)
      (by simpa using slashFree otherNumber) reversed
    simpa using split.2

theorem columnPart_append_chunk_inj (columnsClean : ∀ column ∈ columns, Clean (lower column).toList)
    (othersClean : ∀ column ∈ others, Clean (lower column).toList) (chunk : ChunkPart part)
    (otherChunk : ChunkPart tail) (same : columnPart columns ++ part = columnPart others ++ tail) :
    columns.map lower = others.map lower := by
  have marked : ∀ {name rest : List Char}, Clean name -> ∀ more, name ++ rest ≠ '\x02' :: more := by
    intro name rest clean more same
    cases name with
    | nil => exact clean.ne rfl
    | cons first name =>
      simp only [cons_append, List.cons.injEq] at same
      exact clean.two (same.1 ▸ mem_cons_self)
  unfold columnPart at same
  split at same
  · rename_i column
    split at same
    · rename_i other
      have joined := column_append_chunk_inj (columnsClean column (by simp))
        (othersClean other (by simp)) chunk otherChunk same
      simp [lower_eq_of_toList joined]
    · exact absurd same (marked (columnsClean column (by simp)) _)
  · split at same
    · rename_i other
      exact absurd same.symm (marked (othersClean other (by simp)) _)
    · simp only [cons_append, List.cons.injEq, true_and] at same
      refine map_lower_eq_of_toList (terminated_append_inj ?_ ?_ (chunk.free (by decide))
        (otherChunk.free (by decide)) same).1
      · intro segment member
        obtain ⟨column, inColumns, rfl⟩ := mem_map.mp member
        exact (columnsClean column inColumns).two
      · intro segment member
        obtain ⟨column, inColumns, rfl⟩ := mem_map.mp member
        exact (othersClean column inColumns).two

/-! ## Objects never share a key -/

namespace StoredObject

variable {object other : StoredObject}

variable {space : String}

theorem lowered_eq_of_space (clean : object.Clean) (otherClean : other.Clean)
    (owns : object.OwnsSpace space) (otherOwns : other.OwnsSpace space) :
    object.lowered = other.lowered := by
  have kinds : object.kind = other.kind := (owns.kind clean).symm.trans (otherOwns.kind otherClean)
  cases object with
  | rows table =>
    cases other <;> cases kinds
    simp only [lowered, rows.injEq]
    exact owns.symm.trans otherOwns
  | btreeIndex name =>
    cases other <;> cases kinds
    rename_i other
    obtain rfl : space = "\x01idx:" ++ lower name := owns
    have same : "\x01idx:" ++ lower name = "\x01idx:" ++ lower other := otherOwns
    simpa [lowered] using same
  | pagedVector table column =>
    cases other <;> cases kinds
    obtain ⟨tables, columns⟩ := vectorIndexNamespace_inj clean.1 otherClean.1
      (owns.symm.trans otherOwns)
    simp only [lowered, tables, columns]
  | pagedText table columns =>
    cases other <;> cases kinds
    rename_i otherTable others
    obtain ⟨suffix, isSuffix, rfl⟩ := owns
    obtain ⟨otherSuffix, isOther, same⟩ := otherOwns
    have shape : ∀ suffix ∈ ["", "\x01d", "\x01x", "\x01p"],
        ∃ extra rest, suffix.toList = terminated '\x01' extra ++ rest ∧ '\x01' ∉ rest ∧
          (∀ segment ∈ extra, '\x01' ∉ segment) ∧ extra.length = rest.length := by
      intro suffix member
      simp only [mem_cons, not_mem_nil, or_false] at member
      rcases member with rfl | rfl | rfl | rfl
      · exact ⟨[], [], rfl, by decide, by decide, rfl⟩
      · exact ⟨[[]], ['d'], rfl, by decide, by decide, rfl⟩
      · exact ⟨[[]], ['x'], rfl, by decide, by decide, rfl⟩
      · exact ⟨[[]], ['p'], rfl, by decide, by decide, rfl⟩
    obtain ⟨extra, rest, isExtra, restFree, extraFree, extraLength⟩ := shape suffix isSuffix
    obtain ⟨more, tail, isMore, tailFree, moreFree, moreLength⟩ := shape otherSuffix isOther
    have chars := congrArg String.toList same
    rw [String.toList_append, String.toList_append, isExtra, isMore] at chars
    obtain ⟨tables, columns⟩ := fullTextIndexNamespace_inj clean.1 otherClean.1 clean.2.2
      otherClean.2.2 extraFree moreFree restFree tailFree
      (fun rests => by rw [extraLength, moreLength, rests]) chars
    simp only [lowered, tables, columns]
  | freeList =>
    cases other <;> cases kinds
    rfl
  | metadata _ | savedIndex _ _ | changeLog => exact owns.elim

theorem lowered_eq_of_name {name : String} (clean : object.Clean) (otherClean : other.Clean)
    (owns : object.OwnsName name) (otherOwns : other.OwnsName name) :
    object.lowered = other.lowered := by
  have kinds : object.kind = other.kind := owns.kind.symm.trans otherOwns.kind
  cases object with
  | metadata which =>
    cases other <;> cases kinds
    rename_i other
    have same : which.name = other.name := owns.symm.trans otherOwns
    cases which <;> cases other <;> first | rfl | exact absurd same (by decide)
  | savedIndex table columns =>
    cases other <;> cases kinds
    rename_i otherTable others
    obtain ⟨part, chunk, isName⟩ := owns.saved
    obtain ⟨tail, otherChunk, isOther⟩ := otherOwns.saved
    rw [isName, append_cancel_left_eq] at isOther
    obtain ⟨tables, rests⟩ := append_cons_inj clean.1.colon otherClean.1.colon isOther
    simp only [lowered, lower_eq_of_toList tables,
      columnPart_append_chunk_inj clean.2.2 otherClean.2.2 chunk otherChunk rests]
  | pagedVector table column =>
    cases other <;> cases kinds
    rename_i otherTable otherColumn
    have same : vectorIndexNamespace table column ++ ":header" =
      vectorIndexNamespace otherTable otherColumn ++ ":header" := owns.symm.trans otherOwns
    obtain ⟨tables, columns⟩ := vectorIndexNamespace_inj clean.1 otherClean.1 (by simpa using same)
    simp only [lowered, tables, columns]
  | pagedText table columns =>
    cases other <;> cases kinds
    rename_i otherTable others
    have same : fullTextIndexNamespace table columns ++ ":header" =
      fullTextIndexNamespace otherTable others ++ ":header" := owns.symm.trans otherOwns
    have chars := congrArg String.toList same
    rw [String.toList_append, String.toList_append] at chars
    change _ ++ (terminated '\x01' [] ++ ":header".toList) =
      _ ++ (terminated '\x01' [] ++ ":header".toList) at chars
    obtain ⟨tables, columns⟩ := fullTextIndexNamespace_inj clean.1 otherClean.1 clean.2.2
      otherClean.2.2 (by simp) (by simp) (by decide) (by decide) (fun _ => rfl) chars
    simp only [lowered, tables, columns]
  | changeLog =>
    cases other <;> cases kinds
    rfl
  | rows _ | btreeIndex _ | freeList => exact owns.elim

/-- A character a namespace may be spelled with. -/
def SpaceChar (c : Char) : Prop := c.toLower = c ∧ c ≠ '\x00'

theorem spaceChar_of_clean {name : String} (clean : Sql.Clean (lower name).toList) {c : Char}
    (member : c ∈ (lower name).toList) : SpaceChar c := by
  refine ⟨?_, fun zero => clean.zero (zero ▸ member)⟩
  rw [toList_lower] at member
  obtain ⟨before, -, rfl⟩ := mem_map.mp member
  exact toLower_toLower before

theorem spaceChar_of_literal {literal : String}
    (spelled : literal.toList.all fun c => c.toLower == c && c != '\x00') {c : Char}
    (member : c ∈ literal.toList) : SpaceChar c := by
  simpa [SpaceChar] using all_eq_true.mp spelled c member

section

variable (owns : object.OwnsSpace space) (clean : object.Clean)

include owns clean

theorem OwnsSpace.spaceChar :
    ∀ c ∈ space.toList, SpaceChar c := by
  intro c member
  cases object with
  | rows table =>
    obtain rfl : space = lower table := owns
    exact spaceChar_of_clean clean member
  | btreeIndex name =>
    obtain rfl : space = "\x01idx:" ++ lower name := owns
    rw [String.toList_append, mem_append] at member
    rcases member with tag | member
    · exact spaceChar_of_literal (by decide) tag
    · exact spaceChar_of_clean clean member
  | pagedVector table column =>
    obtain rfl : space = vectorIndexNamespace table column := owns
    rw [toList_vectorIndexNamespace, mem_append, mem_append, mem_cons] at member
    rcases member with tag | member | rfl | member
    · exact spaceChar_of_literal (by decide) tag
    · exact spaceChar_of_clean clean.1 member
    · exact ⟨by decide, by decide⟩
    · exact spaceChar_of_clean clean.2 member
  | pagedText table columns =>
    obtain ⟨suffix, isSuffix, rfl⟩ := owns
    rw [String.toList_append, toList_fullTextIndexNamespace, mem_append, mem_append,
      mem_terminated] at member
    rcases member with (tag | ⟨segment, inSegments, rfl | member⟩) | member
    · exact spaceChar_of_literal (by decide) tag
    · exact ⟨by decide, by decide⟩
    · rcases mem_cons.mp inSegments with rfl | inColumns
      · exact spaceChar_of_clean clean.1 member
      · obtain ⟨column, isColumn, rfl⟩ := mem_map.mp inColumns
        exact spaceChar_of_clean (clean.2.2 column isColumn) member
    · simp only [mem_cons, not_mem_nil, or_false] at isSuffix
      rcases isSuffix with rfl | rfl | rfl | rfl <;> exact spaceChar_of_literal (by decide) member
  | freeList =>
    obtain rfl : space = "\x02free" := owns
    exact spaceChar_of_literal (by decide) member
  | metadata _ | savedIndex _ _ | changeLog => exact owns.elim

theorem OwnsSpace.ne_empty : space ≠ "" := by
  rintro rfl
  cases object with
  | rows table => exact clean.ne (congrArg String.toList (owns : "" = lower table)).symm
  | btreeIndex _ | pagedVector _ _ | pagedText _ _ | freeList => cases owns.kind clean
  | metadata _ | savedIndex _ _ | changeLog => exact owns.elim

theorem OwnsSpace.lower_eq :
    lower space = space := by
  apply String.toList_injective
  rw [toList_lower]
  calc space.toList.map Char.toLower
      = space.toList.map id := map_congr_left fun c member => (owns.spaceChar clean c member).1
    _ = space.toList := map_id _

theorem OwnsSpace.zero_notMem :
    '\x00' ∉ (lower space).toList := by
  rw [owns.lower_eq clean]
  intro member
  exact (owns.spaceChar clean _ member).2 rfl

end

theorem Owns.lowered_eq {key : Bytes} (clean : object.Clean) (otherClean : other.Clean)
    (owns : object.Owns key) (otherOwns : other.Owns key) : object.lowered = other.lowered := by
  rcases owns with ⟨name, owns, rfl⟩ | ⟨space, owns, inSpace⟩
  · rcases otherOwns with ⟨otherName, otherOwns, same⟩ | ⟨otherSpace, otherOwns, inOther⟩
    · have names : name = otherName := utf8_injective (List.cons.inj same).2
      exact lowered_eq_of_name clean otherClean owns (names ▸ otherOwns)
    · refine absurd inOther (not_tablePrefix_metaKey ?_ (otherOwns.zero_notMem otherClean))
      rw [otherOwns.lower_eq otherClean]
      exact otherOwns.ne_empty otherClean
  · rcases otherOwns with ⟨otherName, otherOwns, rfl⟩ | ⟨otherSpace, otherOwns, inOther⟩
    · refine absurd inSpace (not_tablePrefix_metaKey ?_ (owns.zero_notMem clean))
      rw [owns.lower_eq clean]
      exact owns.ne_empty clean
    · have spaces := lower_eq_of_tablePrefix (owns.zero_notMem clean)
        (otherOwns.zero_notMem otherClean) inSpace inOther
      rw [owns.lower_eq clean, otherOwns.lower_eq otherClean] at spaces
      exact lowered_eq_of_space clean otherClean owns (spaces ▸ otherOwns)

end StoredObject

/-! ## Which identifiers keep the objects apart -/

namespace Naming

variable {naming : Naming}

/-- No key belongs to two objects whose identifiers are in use. -/
def Separate (naming : Naming) : Prop :=
  ∀ object other : StoredObject, naming.AdmitsObject object -> naming.AdmitsObject other ->
    object.lowered ≠ other.lowered -> ∀ key, ¬ (object.Owns key ∧ other.Owns key)

theorem Separate.of_safe (safe : naming.Safe) : naming.Separate := by
  intro object other admits otherAdmits distinct key ⟨owns, otherOwns⟩
  exact distinct (owns.lowered_eq (admits.clean safe) (otherAdmits.clean safe) otherOwns)

theorem Separate.name_apart (separate : naming.Separate) (object other : StoredObject)
    (name : String) (admits : naming.AdmitsObject object) (otherAdmits : naming.AdmitsObject other)
    (distinct : object.lowered ≠ other.lowered) (owns : object.OwnsName name) :
    ¬ other.OwnsName name := fun otherOwns =>
  separate object other admits otherAdmits distinct (metaKey name)
    ⟨.inl ⟨name, owns, rfl⟩, .inl ⟨name, otherOwns, rfl⟩⟩

theorem admits_of_all {c : Char} (member : c ∈ naming.alphabet) {names : List String}
    (spelled : names.all fun name => name != "" && name.toList.all (· == c)) :
    ∀ name ∈ names, naming.Admits name := by
  intro name isName
  have both := all_eq_true.mp spelled name isName
  rw [Bool.and_eq_true, bne_iff_ne] at both
  refine ⟨fun d inName => ?_, fun empty => absurd empty both.1⟩
  have same : d = c := by simpa using all_eq_true.mp both.2 d inName
  exact same ▸ member

theorem admits_index_of_all {c : Char} (member : c ∈ naming.alphabet) {table : String}
    {columns : List String} (ne : columns ≠ [])
    (spelled : (table :: columns).all fun name => name != "" && name.toList.all (· == c)) :
    naming.Admits table ∧ columns ≠ [] ∧ ∀ column ∈ columns, naming.Admits column :=
  ⟨admits_of_all member spelled table mem_cons_self, ne, fun column isColumn =>
    admits_of_all member spelled column (mem_cons_of_mem _ isColumn)⟩

theorem spelled_alike : tablePrefix (lower "") <+: metaKey "catalog" ∧
    ((StoredObject.rows "\x00").lowered ≠ (StoredObject.rows "\x00\x00").lowered ∧
      tablePrefix (lower "\x00") <+: tablePrefix (lower "\x00\x00")) ∧
    ((StoredObject.pagedText "\x01" ["\x01", "\x01\x01"]).lowered ≠
        (StoredObject.pagedText "\x01\x01\x01\x01" ["\x01"]).lowered ∧
      headerKey (fullTextIndexNamespace "\x01" ["\x01", "\x01\x01"]) =
        headerKey (fullTextIndexNamespace "\x01\x01\x01\x01" ["\x01"])) ∧
    ((StoredObject.savedIndex "\x02" ["\x02", "\x02\x02"]).lowered ≠
        (StoredObject.savedIndex "\x02" ["\x02\x02\x02\x02\x02\x02"]).lowered ∧
      indexMetaKeyFor "\x02" ["\x02", "\x02\x02"] =
        indexMetaKeyFor "\x02" ["\x02\x02\x02\x02\x02\x02"]) ∧
    ((StoredObject.savedIndex ":" ["::"]).lowered ≠ (StoredObject.savedIndex "::" [":"]).lowered ∧
      indexMetaKeyFor ":" ["::"] = indexMetaKeyFor "::" [":"]) ∧
    ((StoredObject.pagedVector "." "..").lowered ≠ (StoredObject.pagedVector ".." ".").lowered ∧
      headerKey (vectorIndexNamespace "." "..") = headerKey (vectorIndexNamespace ".." ".")) ∧
    ∀ chunk < 10, (StoredObject.savedIndex "/" ["/"]).lowered ≠
          (StoredObject.savedIndex "/" [String.ofList ['/', '/', Nat.digitChar chunk]]).lowered ∧
        indexChunkKey (indexMetaKeyFor "/" ["/"]) chunk =
          indexMetaKeyFor "/" [String.ofList ['/', '/', Nat.digitChar chunk]] := by
  decide +kernel

section

variable (separate : naming.Separate)

include separate

theorem Separate.named : ¬ naming.blank := by
  intro blank
  have admits : naming.AdmitsObject (.rows "") := ⟨by simp, fun _ => blank⟩
  exact separate (.rows "") (.metadata .catalog) admits trivial (by decide) (metaKey "catalog")
    ⟨.inr ⟨lower "", rfl, spelled_alike.1⟩, .inl ⟨"catalog", rfl, rfl⟩⟩

theorem Separate.zero : '\x00' ∉ naming.alphabet := by
  intro member
  obtain ⟨-, ⟨distinct, inside⟩, -⟩ := spelled_alike
  have admits := @admits_of_all naming '\x00' member ["\x00", "\x00\x00"] (by decide)
  exact separate (.rows "\x00") (.rows "\x00\x00") (admits _ (by simp)) (admits _ (by simp))
    distinct (tablePrefix (lower "\x00\x00"))
    ⟨.inr ⟨_, rfl, inside⟩, .inr ⟨_, rfl, prefix_refl _⟩⟩

theorem Separate.one : '\x01' ∉ naming.alphabet := by
  intro member
  obtain ⟨-, -, ⟨distinct, shared⟩, -⟩ := spelled_alike
  exact separate.name_apart (.pagedText "\x01" ["\x01", "\x01\x01"])
    (.pagedText "\x01\x01\x01\x01" ["\x01"]) _ (admits_index_of_all member (by simp) (by decide))
    (admits_index_of_all member (by simp) (by decide)) distinct rfl shared

theorem Separate.two : '\x02' ∉ naming.alphabet := by
  intro member
  obtain ⟨-, -, -, ⟨distinct, shared⟩, -⟩ := spelled_alike
  exact separate.name_apart (.savedIndex "\x02" ["\x02", "\x02\x02"])
    (.savedIndex "\x02" ["\x02\x02\x02\x02\x02\x02"]) _
    (admits_index_of_all member (by simp) (by decide))
    (admits_index_of_all member (by simp) (by decide)) distinct (.inl rfl) (.inl shared)

theorem Separate.colon : ':' ∉ naming.alphabet := by
  intro member
  obtain ⟨-, -, -, -, ⟨distinct, shared⟩, -⟩ := spelled_alike
  exact separate.name_apart (.savedIndex ":" ["::"]) (.savedIndex "::" [":"]) _
    (admits_index_of_all member (by simp) (by decide))
    (admits_index_of_all member (by simp) (by decide)) distinct (.inl rfl) (.inl shared)

theorem Separate.dot : '.' ∉ naming.alphabet := by
  intro member
  obtain ⟨-, -, -, -, -, ⟨distinct, shared⟩, -⟩ := spelled_alike
  have admits := @admits_of_all naming '.' member [".", ".."] (by decide)
  exact separate.name_apart (.pagedVector "." "..") (.pagedVector ".." ".") _
    ⟨admits _ (by simp), admits _ (by simp)⟩ ⟨admits _ (by simp), admits _ (by simp)⟩
    distinct rfl shared

end

theorem exists_digitChar {digit : Char} (isDigit : digit.isDigit = true) :
    ∃ chunk < 10, digit = Nat.digitChar chunk := by
  simp only [Char.isDigit, Bool.and_eq_true, decide_eq_true_eq, UInt32.le_iff_toNat_le] at isDigit
  obtain ⟨low, high⟩ := isDigit
  have low : 48 ≤ digit.toNat := by simpa using low
  have high : digit.toNat ≤ 57 := by simpa using high
  have same := Char.ofNat_toNat digit
  refine ⟨digit.toNat - 48, by omega, ?_⟩
  generalize digit.toNat = code at low high same
  subst same
  interval_cases code <;> decide

theorem Separate.chunk (separate : naming.Separate) :
    ¬ ('/' ∈ naming.alphabet ∧ ∃ digit ∈ naming.alphabet, digit.isDigit = true) := by
  rintro ⟨slash, digit, member, isDigit⟩
  obtain ⟨chunk, small, rfl⟩ := exists_digitChar isDigit
  obtain ⟨-, -, -, -, -, -, alike⟩ := spelled_alike
  obtain ⟨distinct, shared⟩ := alike chunk small
  have admitsSlash : naming.Admits "/" :=
    @admits_of_all naming '/' slash ["/"] (by decide) _ (by simp)
  have admitsOther : naming.Admits (String.ofList ['/', '/', Nat.digitChar chunk]) := by
    refine ⟨?_, by simp⟩
    simp [slash, member]
  exact separate.name_apart (.savedIndex "/" ["/"])
    (.savedIndex "/" [String.ofList ['/', '/', Nat.digitChar chunk]]) _
    ⟨admitsSlash, by simp, by simpa using admitsSlash⟩
    ⟨admitsSlash, by simp, by simpa using admitsOther⟩ distinct (.inr ⟨chunk, rfl⟩) (.inl shared)

end Naming

/-- The objects whose identifiers are in use never share a key exactly when the
identifiers are spelled safely. -/
theorem key_namespaces_disjoint (naming : Naming) :
    (∀ object other : StoredObject, naming.AdmitsObject object -> naming.AdmitsObject other ->
      object.lowered ≠ other.lowered -> ∀ key, ¬ (object.Owns key ∧ other.Owns key)) ↔
      naming.Safe := by
  constructor
  · intro separate
    have apart : naming.Separate := separate
    exact ⟨apart.named, apart.zero, apart.one, apart.two, apart.colon, apart.dot, apart.chunk⟩
  · exact Naming.Separate.of_safe

/-- Two tables with a text column each, and a full-text index on it. -/
def collidingCatalog : Except Error Catalog := do
  let column (name : String) : Column := ⟨name, .text, false, false, none, .binary⟩
  let table (name text : String) : Table := ⟨name, [column text], false, false, [], false⟩
  let index (name table column : String) : Index :=
    ⟨name, table, [column], .fullText, false, [.binary], .cosine⟩
  let left <- Catalog.empty.createTableWith (table "a:b" "c") .empty
  let both <- left.createTableWith (table "a" "b:c") .empty
  let indexed <- both.createIndex (index "i" "a:b" "c")
  indexed.createIndex (index "j" "a" "b:c")

/-- The catalog takes both indexes and their saved forms have one key. -/
theorem saved_indexes_collide : collidingCatalog.toOption.isSome = true ∧
      (StoredObject.savedIndex "a:b" ["c"]).lowered ≠ (StoredObject.savedIndex "a" ["b:c"]).lowered ∧
      ∃ key, (StoredObject.savedIndex "a:b" ["c"]).Owns key ∧
        (StoredObject.savedIndex "a" ["b:c"]).Owns key := by
  refine ⟨by decide +kernel, by decide +kernel, metaKey "index:a:b:c",
    .inl ⟨_, .inl ?_, rfl⟩, .inl ⟨_, .inl ?_, rfl⟩⟩
  · decide +kernel
  · decide +kernel

end InlaySql.Sql
