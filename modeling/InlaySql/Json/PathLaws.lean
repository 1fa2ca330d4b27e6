import InlaySql.Json.Path

/-!
# What an update does

A write is one of a few things at each step of the path: the first member of the name, or
the element at the index, is replaced by what the rest of the path makes of it, or a member
or an element is added at the end, or a container is built that holds nothing else. Writing
and removing are exactly these relations, and the laws between reading and writing follow
from them.
-/

namespace InlaySql.Json

open List Option

/-! ## Splitting at a position -/

section Splitting

variable {α : Type} {test : α -> Bool} {items before after : List α} {item : α}

theorem findIdx?_split {pos : Nat} (found : items.findIdx? test = some pos) :
    ∃ before item after, items = before ++ item :: after ∧ before.length = pos ∧
      test item = true ∧ ∀ other ∈ before, test other = false := by
  induction items generalizing pos with
  | nil => simp at found
  | cons first items ih =>
    rw [findIdx?_cons] at found
    cases tested : test first with
    | true =>
      obtain rfl : 0 = pos := by simpa [tested] using found
      exact ⟨[], first, items, rfl, rfl, tested, by simp⟩
    | false =>
      simp only [tested, Bool.false_eq_true, if_false, map_eq_some_iff] at found
      obtain ⟨earlier, foundEarlier, rfl⟩ := found
      obtain ⟨before, item, after, rfl, rfl, isItem, others⟩ := ih foundEarlier
      refine ⟨first :: before, item, after, rfl, rfl, isItem, ?_⟩
      exact forall_mem_cons.mpr ⟨tested, others⟩

section

variable (others : ∀ other ∈ before, test other = false) (isItem : test item = true)

include others isItem

theorem findIdx?_append_cons : (before ++ item :: after).findIdx? test = some before.length := by
  induction before with
  | nil => simp [findIdx?_cons, isItem]
  | cons first before ih =>
    obtain ⟨isOther, others⟩ := forall_mem_cons.mp others
    simp [findIdx?_cons, isOther, ih others]

theorem find?_append_cons : (before ++ item :: after).find? test = some item := by
  induction before with
  | nil => simp [isItem]
  | cons first before ih =>
    obtain ⟨isOther, others⟩ := forall_mem_cons.mp others
    simp [isOther, ih others]

end

theorem modify_append_cons (update : α -> α) :
    (before ++ item :: after).modify before.length update = before ++ update item :: after := by
  induction before with
  | nil => rfl
  | cons first before ih => simp [ih]

theorem set_append_cons (other : α) :
    (before ++ item :: after).set before.length other = before ++ other :: after := by
  induction before with
  | nil => rfl
  | cons first before ih => simp [ih]

theorem eraseIdx_append_cons : (before ++ item :: after).eraseIdx before.length = before ++ after := by
  induction before with
  | nil => rfl
  | cons first before ih => simp [ih]

theorem getElem?_append_cons : (before ++ item :: after)[before.length]? = some item := by
  simp

theorem exists_split {index : Nat} (inside : index < items.length) :
    ∃ before item after, items = before ++ item :: after ∧ before.length = index :=
  ⟨items.take index, items[index], items.drop (index + 1),
    by rw [getElem_cons_drop, take_append_drop], by simp; omega⟩

end Splitting

/-! ## Writing -/

/-- No member has this name. -/
def Unnamed (key : String) (members : List (String × Json)) : Prop := ∀ member ∈ members, member.1 ≠ key

/-- The node a path leads to, from a node that may be missing. -/
def node (current : Option Json) (steps : List Step) : Option Json :=
  current.bind fun doc => steps.foldlM child doc

/-- What writing a value at a path makes of a node, which may be missing. -/
inductive Written (value : Json) : List Step -> Option Json -> Json -> Prop where
  | here {current} : Written value [] current value
  | member {key rest before old new after} (earlier : Unnamed key before)
      (deeper : Written value rest (some old) new) :
      Written value (.key key :: rest) (some (.object (before ++ (key, old) :: after)))
        (.object (before ++ (key, new) :: after))
  | newMember {key rest members new} (absent : Unnamed key members)
      (deeper : Written value rest none new) :
      Written value (.key key :: rest) (some (.object members)) (.object (members ++ [(key, new)]))
  | newObject {key rest new} (deeper : Written value rest none new) :
      Written value (.key key :: rest) none (.object [(key, new)])
  | element {spec rest before old new after}
      (resolved : spec.resolve (before ++ old :: after).length = some before.length)
      (deeper : Written value rest (some old) new) :
      Written value (.index spec :: rest) (some (.array (before ++ old :: after)))
        (.array (before ++ new :: after))
  | newElement {spec rest items new} (resolved : spec.resolve items.length = some items.length)
      (deeper : Written value rest none new) :
      Written value (.index spec :: rest) (some (.array items)) (.array (items ++ [new]))
  | newArray {spec rest new} (resolved : spec.resolve 0 = some 0)
      (deeper : Written value rest none new) :
      Written value (.index spec :: rest) none (.array [new])

/-- Whether a mode writes to a node that is there, or is missing. -/
def PutMode.Permits : PutMode -> Option Json -> Prop
  | .set, _ => True
  | .insert, target => target = none
  | .replace, target => target ≠ none

@[simp] theorem node_nil (current : Option Json) : node current [] = current := by
  cases current <;> rfl

theorem node_cons (doc : Json) (step : Step) (rest : List Step) :
    node (some doc) (step :: rest) = node (child doc step) rest := rfl

theorem child_member {key : String} {before after : List (String × Json)} {old : Json}
    (earlier : Unnamed key before) :
    child (.object (before ++ (key, old) :: after)) (.key key) = some old := by
  have others : ∀ other ∈ before, (other.1 == key) = false := fun other isOther => by
    simpa using earlier other isOther
  rw [child, find?_append_cons others (by simp)]
  rfl

theorem child_unnamed {key : String} {members : List (String × Json)}
    (absent : Unnamed key members) : child (.object members) (.key key) = none := by
  rw [child, find?_eq_none.mpr fun member isMember => by simpa using absent member isMember]
  rfl

variable {spec : IndexSpec} {mode : PutMode} {value : Json} {steps : List Step}
  {current : Option Json} {after doc : Json}

theorem child_element {before after : List Json} {old : Json}
    (resolved : spec.resolve (before ++ old :: after).length = some before.length) :
    child (.array (before ++ old :: after)) (.index spec) = some old := by
  rw [child, resolved]
  simp

theorem child_past {items : List Json} (resolved : spec.resolve items.length = some items.length) :
    child (.array items) (.index spec) = none := by
  rw [child, resolved]
  simp

theorem not_replace_of_missing {target : Option Json} (permits : mode.Permits target)
    (missing : target = none) : mode ≠ .replace := by
  rintro rfl
  exact permits missing

theorem applyPut_of_written (written : Written value steps current after)
    (permits : mode.Permits (node current steps)) :
    applyPut value mode steps current = some after := by
  induction written with
  | @here current =>
    rw [node_nil] at permits
    cases current with
    | none =>
      have notReplace := not_replace_of_missing permits rfl
      cases mode with
      | replace => exact absurd rfl notReplace
      | set | insert => rfl
    | some doc =>
      cases mode with
      | insert => cases permits
      | set | replace => rfl
  | @member key rest before old new after earlier deeper ih =>
    have others : ∀ other ∈ before, (other.1 == key) = false := fun other isOther => by
      simpa using earlier other isOther
    have found : (before ++ (key, old) :: after).findIdx? (fun member => member.1 == key) =
        some before.length := findIdx?_append_cons others (by simp)
    rw [node_cons, child_member earlier] at permits
    simp only [applyPut, found, getElem?_append_cons, map_some, ih permits,
      bind_eq_bind, bind_some, modify_append_cons]
  | @newMember key rest members new absent deeper ih =>
    have missing : members.findIdx? (fun member => member.1 == key) = none :=
      findIdx?_eq_none_iff.mpr fun member isMember => by simpa using absent member isMember
    rw [node_cons, child_unnamed absent] at permits
    simp only [applyPut, missing, if_neg (not_replace_of_missing permits rfl), ih permits,
      bind_eq_bind, bind_some]
  | newObject deeper ih =>
    simp only [applyPut, if_neg (not_replace_of_missing permits rfl), ih permits,
      bind_eq_bind, bind_some]
  | @element spec rest before old new after resolved deeper ih =>
    rw [node_cons, child_element resolved] at permits
    have inside : before.length < (before ++ old :: after).length := by simp
    simp only [applyPut, resolved, bind_eq_bind, bind_some, if_pos inside,
      getElem?_append_cons, ih permits, set_append_cons]
  | @newElement spec rest items new resolved deeper ih =>
    rw [node_cons, child_past resolved] at permits
    simp only [applyPut, resolved, bind_eq_bind, bind_some, lt_irrefl, if_false,
      true_and, if_pos (not_replace_of_missing permits rfl), ih permits]
  | newArray resolved deeper ih =>
    simp only [applyPut, if_pos (And.intro (not_replace_of_missing permits rfl) resolved),
      ih permits, bind_eq_bind, bind_some]

theorem written_of_applyPut (wrote : applyPut value mode steps current = some after) :
    Written value steps current after ∧ mode.Permits (node current steps) := by
  induction steps generalizing current after with
  | nil =>
    rw [node_nil]
    cases current with
    | none =>
      cases mode with
      | replace => cases wrote
      | set | insert =>
        cases wrote
        exact ⟨.here, by simp [PutMode.Permits]⟩
    | some doc =>
      cases mode with
      | insert => cases wrote
      | set | replace =>
        cases wrote
        exact ⟨.here, by simp [PutMode.Permits]⟩
  | cons step rest ih =>
    cases step with
    | key key =>
      cases current with
      | none =>
        simp only [applyPut] at wrote
        split at wrote
        · cases wrote
        · obtain ⟨new, deeper, same⟩ := bind_eq_some_iff.mp wrote
          cases same
          exact ⟨.newObject (ih deeper).1, (ih deeper).2⟩
      | some doc =>
        cases doc with
        | object members =>
          simp only [applyPut] at wrote
          cases found : members.findIdx? fun member => member.1 == key with
          | some pos =>
            obtain ⟨before, member, later, rfl, rfl, named, others⟩ := findIdx?_split found
            obtain ⟨name, old⟩ := member
            obtain rfl : name = key := by simpa using named
            have earlier : Unnamed name before := fun other isOther => by
              simpa using others other isOther
            rw [found] at wrote
            simp only [getElem?_append_cons, modify_append_cons] at wrote
            obtain ⟨new, deeper, same⟩ := bind_eq_some_iff.mp wrote
            cases same
            rw [node_cons, child_member earlier]
            exact ⟨.member earlier (ih deeper).1, (ih deeper).2⟩
          | none =>
            have absent : Unnamed key members := fun member isMember => by
              simpa using findIdx?_eq_none_iff.mp found member isMember
            rw [found] at wrote
            simp only at wrote
            split at wrote
            · cases wrote
            · obtain ⟨new, deeper, same⟩ := bind_eq_some_iff.mp wrote
              cases same
              rw [node_cons, child_unnamed absent]
              exact ⟨.newMember absent (ih deeper).1, (ih deeper).2⟩
        | null | bool | int | real | text | array => cases wrote
    | index spec =>
      cases current with
      | none =>
        simp only [applyPut] at wrote
        split at wrote
        · rename_i resolved
          obtain ⟨new, deeper, same⟩ := bind_eq_some_iff.mp wrote
          cases same
          exact ⟨.newArray resolved.2 (ih deeper).1, (ih deeper).2⟩
        · cases wrote
      | some doc =>
        cases doc with
        | array items =>
          simp only [applyPut] at wrote
          obtain ⟨i, resolved, wrote⟩ := bind_eq_some_iff.mp wrote
          split at wrote
          · rename_i inside
            obtain ⟨before, old, later, rfl, rfl⟩ := exists_split inside
            rw [getElem?_append_cons] at wrote
            obtain ⟨new, deeper, same⟩ := bind_eq_some_iff.mp wrote
            rw [set_append_cons] at same
            cases same
            rw [node_cons, child_element resolved]
            exact ⟨.element resolved (ih deeper).1, (ih deeper).2⟩
          · split at wrote
            · rename_i atEnd
              obtain ⟨rfl, -⟩ := atEnd
              obtain ⟨new, deeper, same⟩ := bind_eq_some_iff.mp wrote
              cases same
              rw [node_cons, child_past resolved]
              exact ⟨.newElement resolved (ih deeper).1, (ih deeper).2⟩
            · cases wrote
        | null | bool | int | real | text | object => cases wrote

theorem applyPut_eq_some : applyPut value mode steps current = some after ↔
      Written value steps current after ∧ mode.Permits (node current steps) :=
  ⟨written_of_applyPut, fun both => applyPut_of_written both.1 both.2⟩

/-! ## Reading what was written -/

/-- No step counts from the end of the array it may grow. -/
def Settled (steps : List Step) : Prop :=
  ∀ step ∈ steps, step ≠ .index .append ∧ step ≠ .index (.fromEnd 0)

theorem resolve_grown {len : Nat} (resolved : spec.resolve len = some len)
    (settled : Step.index spec ≠ .index .append ∧ Step.index spec ≠ .index (.fromEnd 0)) :
    spec.resolve (len + 1) = some len := by
  cases spec with
  | exact n => exact resolved
  | append => exact absurd rfl settled.1
  | fromEnd n =>
    simp only [IndexSpec.resolve, ite_none_right_eq_some, Option.some.injEq] at resolved
    obtain ⟨rfl⟩ : n = 0 := by
      by_contra notZero
      exact settled.2 (by congr; omega)
    exact absurd rfl settled.2

theorem Written.reads (written : Written value steps current after) (settled : Settled steps) :
    steps.foldlM child after = some value := by
  induction written with
  | here => rfl
  | member earlier deeper ih =>
    rw [foldlM_cons, child_member earlier]
    exact ih (forall_mem_cons.mp settled).2
  | newMember absent deeper ih =>
    rw [foldlM_cons, child_member absent]
    exact ih (forall_mem_cons.mp settled).2
  | @newObject key rest new deeper ih =>
    rw [foldlM_cons, show [(key, new)] = [] ++ (key, new) :: [] from rfl,
      child_member (fun _ member => by cases member)]
    exact ih (forall_mem_cons.mp settled).2
  | @element spec rest before old new later resolved deeper ih =>
    have sameLength : spec.resolve (before ++ new :: later).length = some before.length := by
      rw [<- resolved]
      simp
    rw [foldlM_cons, child_element sameLength]
    exact ih (forall_mem_cons.mp settled).2
  | @newElement spec rest items new resolved deeper ih =>
    have grown : spec.resolve (items ++ new :: []).length = some items.length := by
      rw [length_append]
      exact resolve_grown resolved (forall_mem_cons.mp settled).1
    rw [foldlM_cons, child_element grown]
    exact ih (forall_mem_cons.mp settled).2
  | @newArray spec rest new resolved deeper ih =>
    have grown : spec.resolve ([] ++ new :: []).length = some ([] : List Json).length :=
      resolve_grown resolved (forall_mem_cons.mp settled).1
    rw [foldlM_cons, show [new] = [] ++ new :: [] from rfl, child_element grown]
    exact ih (forall_mem_cons.mp settled).2

/-! ## Removing -/

/-- What removing a node at a path makes of a document. -/
inductive Removed (node : Json) : List Step -> Json -> Json -> Prop where
  | member {key before after} (earlier : Unnamed key before) :
      Removed node [.key key] (.object (before ++ (key, node) :: after)) (.object (before ++ after))
  | element {spec before after}
      (resolved : spec.resolve (before ++ node :: after).length = some before.length) :
      Removed node [.index spec] (.array (before ++ node :: after)) (.array (before ++ after))
  | inMember {key rest before old new after} (earlier : Unnamed key before)
      (deeper : Removed node rest old new) :
      Removed node (.key key :: rest) (.object (before ++ (key, old) :: after))
        (.object (before ++ (key, new) :: after))
  | inElement {spec rest before old new after}
      (resolved : spec.resolve (before ++ old :: after).length = some before.length)
      (deeper : Removed node rest old new) :
      Removed node (.index spec :: rest) (.array (before ++ old :: after))
        (.array (before ++ new :: after))

section

variable {node : Json} (removed : Removed node steps doc after)

include removed

theorem Removed.ne_nil : steps ≠ [] := by
  cases removed <;> simp

theorem applyRemove_of_removed : applyRemove steps doc = some after := by
  have position {key : String} {before after : List (String × Json)} {old : Json}
      (earlier : Unnamed key before) : (before ++ (key, old) :: after).findIdx?
        (fun member => member.1 == key) = some before.length :=
    findIdx?_append_cons (fun other isOther => by simpa using earlier other isOther) (by simp)
  have inside {before after : List Json} {old : Json} :
      ¬ (before ++ old :: after).length ≤ before.length := by simp
  induction removed with
  | member earlier =>
    simp only [applyRemove, position earlier, bind_eq_bind, bind_some,
      isEmpty_nil, if_true, eraseIdx_append_cons]
  | element resolved =>
    simp only [applyRemove, resolved, bind_eq_bind, bind_some, if_neg inside,
      isEmpty_nil, if_true, eraseIdx_append_cons]
  | inMember earlier deeper ih =>
    have more := isEmpty_eq_false_iff.mpr deeper.ne_nil
    simp only [applyRemove, position earlier, bind_eq_bind, bind_some, more,
      Bool.false_eq_true, if_false, getElem?_append_cons, ih, modify_append_cons]
  | inElement resolved deeper ih =>
    have more := isEmpty_eq_false_iff.mpr deeper.ne_nil
    simp only [applyRemove, resolved, bind_eq_bind, bind_some, if_neg inside, more,
      Bool.false_eq_true, if_false, getElem?_append_cons, ih, set_append_cons]

end

theorem child_cases {node : Json} {step : Step} (found : child doc step = some node) :
    (∃ key before after, step = .key key ∧ doc = .object (before ++ (key, node) :: after) ∧
      Unnamed key before) ∨
    (∃ spec before after, step = .index spec ∧ doc = .array (before ++ node :: after) ∧
      spec.resolve (before ++ node :: after).length = some before.length) := by
  cases step with
  | key key =>
    cases doc with
    | object members =>
      simp only [child, map_eq_some_iff] at found
      obtain ⟨⟨name, value⟩, found, rfl⟩ := found
      obtain ⟨named, before, after, rfl, others⟩ := find?_eq_some_iff_append.mp found
      obtain rfl : name = key := by simpa using named
      refine .inl ⟨name, before, after, rfl, rfl, fun member isMember => ?_⟩
      simpa using others member isMember
    | null | bool | int | real | text | array => cases found
  | index spec =>
    cases doc with
    | array items =>
      obtain ⟨i, resolved, found⟩ := bind_eq_some_iff.mp found
      obtain ⟨inside, found⟩ := List.getElem?_eq_some_iff.mp found
      obtain ⟨before, item, after, rfl, rfl⟩ := exists_split inside
      obtain rfl : item = node := by simpa using found
      exact .inr ⟨spec, before, after, rfl, rfl, resolved⟩
    | null | bool | int | real | text | object => cases found

theorem removed_of_found {node : Json} (below : steps ≠ [])
    (found : steps.foldlM child doc = some node) : ∃ after, Removed node steps doc after := by
  induction steps generalizing doc with
  | nil => exact absurd rfl below
  | cons step rest ih =>
    rw [foldlM_cons] at found
    obtain ⟨next, first, later⟩ := bind_eq_some_iff.mp found
    cases rest with
    | nil =>
      obtain rfl : next = node := by simpa using later
      obtain ⟨key, before, after, rfl, rfl, earlier⟩ |
        ⟨spec, before, after, rfl, rfl, resolved⟩ := child_cases first
      · exact ⟨_, .member earlier⟩
      · exact ⟨_, .element resolved⟩
    | cons second rest =>
      obtain ⟨new, deeper⟩ := ih (by simp) later
      obtain ⟨key, before, after, rfl, rfl, earlier⟩ |
        ⟨spec, before, after, rfl, rfl, resolved⟩ := child_cases first
      · exact ⟨_, .inMember earlier deeper⟩
      · exact ⟨_, .inElement resolved deeper⟩

theorem found_of_applyRemove (removed : applyRemove steps doc = some after) :
    steps ≠ [] ∧ ∃ node, steps.foldlM child doc = some node := by
  induction steps generalizing doc after with
  | nil => cases removed
  | cons step rest ih =>
    refine ⟨by simp, ?_⟩
    rw [foldlM_cons]
    cases step with
    | key key =>
      cases doc with
      | object members =>
        simp only [applyRemove] at removed
        obtain ⟨pos, found, erased⟩ := bind_eq_some_iff.mp removed
        obtain ⟨before, ⟨name, old⟩, later, rfl, rfl, named, others⟩ := findIdx?_split found
        obtain rfl : name = key := by simpa using named
        rw [child_member fun other isOther => by simpa using others other isOther]
        split at erased
        · rename_i last
          exact ⟨old, by rw [List.isEmpty_iff.mp last]; rfl⟩
        · obtain ⟨new, deeper, -⟩ := bind_eq_some_iff.mp erased
          rw [getElem?_append_cons] at deeper
          exact (ih deeper).2
      | null | bool | int | real | text | array => cases removed
    | index spec =>
      cases doc with
      | array items =>
        simp only [applyRemove] at removed
        obtain ⟨i, resolved, removed⟩ := bind_eq_some_iff.mp removed
        split at removed
        · cases removed
        · rename_i inside
          obtain ⟨before, old, later, rfl, rfl⟩ := exists_split (not_le.mp inside)
          rw [child_element resolved]
          split at removed
          · rename_i last
            exact ⟨old, by rw [List.isEmpty_iff.mp last]; rfl⟩
          · obtain ⟨new, deeper, -⟩ := bind_eq_some_iff.mp removed
            rw [getElem?_append_cons] at deeper
            exact (ih deeper).2
      | null | bool | int | real | text | object => cases removed

/-! ## The laws -/

theorem put_cases (doc : Json) (path : Path) (value : Json) (mode : PutMode) :
    (put doc path value mode = doc ∧ ¬ ∃ after, Written value path.steps (some doc) after ∧
      mode.Permits (get doc path)) ∨
    (Written value path.steps (some doc) (put doc path value mode) ∧ mode.Permits (get doc path)) := by
  unfold put
  cases wrote : applyPut value mode path.steps (some doc) with
  | none =>
    refine .inl ⟨rfl, ?_⟩
    rintro ⟨after, both⟩
    rw [applyPut_eq_some.mpr both] at wrote
    cases wrote
  | some after => exact .inr (applyPut_eq_some.mp wrote)

theorem put_congr {path : Path} (value : Json) {first second : PutMode}
    (same : first.Permits (get doc path) ↔ second.Permits (get doc path)) :
    put doc path value first = put doc path value second := by
  have agree : applyPut value first path.steps (some doc) =
      applyPut value second path.steps (some doc) := by
    refine Option.ext fun after => ?_
    exact applyPut_eq_some.trans ((and_congr_right fun _ => same).trans applyPut_eq_some.symm)
  rw [put, put, agree]

theorem put_refused {path : Path} (value : Json) (refused : ¬ mode.Permits (get doc path)) :
    put doc path value mode = doc := by
  obtain ⟨same, -⟩ | ⟨-, permits⟩ := put_cases doc path value mode
  · exact same
  · exact absurd permits refused

theorem remove_eq_some (doc : Json) (path : Path) (after : Json) : remove doc path = some after ↔
      ∃ node, get doc path = some node ∧ Removed node path.steps doc after := by
  constructor
  · intro removed
    obtain ⟨below, node, found⟩ := found_of_applyRemove removed
    obtain ⟨other, isRemoved⟩ := removed_of_found below found
    obtain rfl : other = after :=
      Option.some.inj ((applyRemove_of_removed isRemoved).symm.trans removed)
    exact ⟨node, found, isRemoved⟩
  · rintro ⟨node, -, removed⟩
    exact applyRemove_of_removed removed

theorem remove_eq_none (doc : Json) (path : Path) :
    remove doc path = none ↔ path.steps = [] ∨ get doc path = none := by
  constructor
  · intro missed
    by_contra! both
    obtain ⟨node, found⟩ := ne_none_iff_exists'.mp both.2
    obtain ⟨after, removed⟩ := removed_of_found both.1 found
    rw [remove, applyRemove_of_removed removed] at missed
    cases missed
  · intro missing
    cases removed : remove doc path with
    | none => rfl
    | some after =>
      obtain ⟨node, found, isRemoved⟩ := (remove_eq_some doc path after).mp removed
      obtain root | lost := missing
      · exact absurd root isRemoved.ne_nil
      · rw [lost] at found
        cases found

/-- The laws between reading, writing and removing at a path. A write either leaves the
document as it is, because the path cannot be satisfied or the mode refuses the target, or is
what `Written` says: one place along the path changes and everything else stands where it
stood. The root itself is never removed. -/
theorem path_updates (doc value : Json) (path : Path) : (∀ node, get doc path = some node ->
      put doc path value .set = put doc path value .replace ∧ put doc path value .insert = doc) ∧
    (get doc path = none ->
      put doc path value .replace = doc ∧ put doc path value .set = put doc path value .insert) ∧
    (∀ mode, put doc path value mode ≠ doc -> Settled path.steps ->
      get (put doc path value mode) path = some value) ∧
    (∀ mode, (put doc path value mode = doc ∧ ¬ ∃ after,
        Written value path.steps (some doc) after ∧ mode.Permits (get doc path)) ∨
      (Written value path.steps (some doc) (put doc path value mode) ∧
        mode.Permits (get doc path))) ∧
    (∀ after, remove doc path = some after ↔
      ∃ node, get doc path = some node ∧ Removed node path.steps doc after) ∧
    (remove doc path = none ↔ path.steps = [] ∨ get doc path = none) := by
  refine ⟨?_, ?_, ?_, put_cases doc path value, remove_eq_some doc path, remove_eq_none doc path⟩
  · intro node found
    refine ⟨put_congr value ?_, put_refused value ?_⟩
    · simp [PutMode.Permits, found]
    · simp [PutMode.Permits, found]
  · intro missing
    refine ⟨put_refused value ?_, put_congr value ?_⟩
    · simp [PutMode.Permits, missing]
    · simp [PutMode.Permits, missing]
  · intro mode changed settled
    obtain ⟨same, -⟩ | ⟨written, -⟩ := put_cases doc path value mode
    · exact absurd same changed
    · exact written.reads settled

end InlaySql.Json
