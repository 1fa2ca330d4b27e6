import InlaySql.Json.Path
import InlaySql.Json.Write

/-!
# Updates and the numbers of a document

An update moves numbers about and never looks at them: what holds of every number of a
document and of the value put into it holds of the result, and replacing the numbers before
an update is replacing them after it.
-/

namespace InlaySql.Json

open List Option Sql

variable {holds : F64 -> String -> Prop} {f : F64 -> String -> F64 × String}

/-! ## Elements and members -/

variable {items : List Json} {members : List (String × Json)} {doc : Json}

theorem realsItems_iff : RealsItems holds items ↔ ∀ item ∈ items, item.Reals holds := by
  induction items with
  | nil => simp [RealsItems]
  | cons item items ih => simp [RealsItems, ih]

theorem realsMembers_iff :
    RealsMembers holds members ↔ ∀ member ∈ members, member.2.Reals holds := by
  induction members with
  | nil => simp [RealsMembers]
  | cons member members ih =>
    obtain ⟨key, value⟩ := member
    simp [RealsMembers, ih]

theorem mapItems_eq (items : List Json) : mapItems f items = items.map (mapReals f) := by
  induction items with
  | nil => rfl
  | cons item items ih => rw [mapItems, ih, map_cons]

/-- A member with the numbers of its value replaced. -/
def mapMember (f : F64 -> String -> F64 × String) (member : String × Json) : String × Json :=
  (member.1, member.2.mapReals f)

theorem mapMembers_eq (members : List (String × Json)) :
    mapMembers f members = members.map (mapMember f) := by
  induction members with
  | nil => rfl
  | cons member members ih =>
    obtain ⟨key, value⟩ := member
    rw [mapMembers, ih, map_cons]
    rfl

/-! ## What holds of the numbers -/

theorem reals_child {node : Json} {step : Step} (all : doc.Reals holds)
    (found : child doc step = some node) : node.Reals holds := by
  unfold child at found
  split at found
  · rename_i members key
    simp only [map_eq_some_iff] at found
    obtain ⟨member, found, rfl⟩ := found
    exact realsMembers_iff.mp all member (mem_of_find?_eq_some found)
  · rename_i items spec
    simp only [bind_eq_some_iff] at found
    obtain ⟨index, -, found⟩ := found
    exact realsItems_iff.mp all node (mem_of_getElem? found)
  · cases found

theorem reals_get {node : Json} {path : Path} (all : doc.Reals holds)
    (found : get doc path = some node) : node.Reals holds := by
  obtain ⟨steps⟩ := path
  unfold get at found
  dsimp only at found
  induction steps generalizing doc with
  | nil =>
    obtain rfl : doc = node := by simpa using found
    exact all
  | cons step steps ih =>
    rw [foldlM_cons] at found
    simp only [bind_eq_bind, bind_eq_some_iff] at found
    obtain ⟨next, stepped, found⟩ := found
    exact ih (reals_child all stepped) found

theorem realsMembers_modify {child : Json} {pos : Nat} (all : RealsMembers holds members)
    (isChild : child.Reals holds) :
    RealsMembers holds (members.modify pos fun member => (member.1, child)) := by
  rw [realsMembers_iff] at all ⊢
  intro member inside
  obtain ⟨index, found⟩ := mem_iff_getElem?.mp inside
  simp only [List.getElem?_modify, Option.map_eq_map, map_eq_some_iff] at found
  obtain ⟨old, there, rfl⟩ := found
  split
  · exact isChild
  · exact all old (mem_of_getElem? there)

theorem realsItems_set {child : Json} {index : Nat} (all : RealsItems holds items)
    (isChild : child.Reals holds) : RealsItems holds (items.set index child) := by
  rw [realsItems_iff] at all ⊢
  intro item inside
  rcases mem_or_eq_of_mem_set inside with old | rfl
  · exact all item old
  · exact isChild

theorem reals_applyPut {value : Json} {mode : PutMode} (isValue : value.Reals holds) :
    ∀ {steps : List Step} {current : Option Json} {next : Json},
      (∀ doc, current = some doc -> doc.Reals holds) ->
        applyPut value mode steps current = some next -> next.Reals holds := by
  intro steps
  induction steps with
  | nil =>
    intro current next all applied
    unfold applyPut at applied
    split at applied
    · cases applied
    · cases applied
    · cases applied
      exact isValue
  | cons step steps ih =>
    intro current next all applied
    cases step with
    | key key =>
      unfold applyPut at applied
      split at applied
      · rename_i members
        have isDoc : RealsMembers holds members := all _ rfl
        split at applied
        · rename_i pos _
          simp only [bind_eq_bind, bind_eq_some_iff, Option.some.injEq] at applied
          obtain ⟨child, applied, rfl⟩ := applied
          refine realsMembers_modify isDoc (ih ?_ applied)
          intro doc found
          simp only [map_eq_some_iff] at found
          obtain ⟨member, found, rfl⟩ := found
          exact realsMembers_iff.mp isDoc member (mem_of_getElem? found)
        · split at applied
          · cases applied
          · simp only [bind_eq_bind, bind_eq_some_iff, Option.some.injEq] at applied
            obtain ⟨child, applied, rfl⟩ := applied
            have isChild := ih (by simp) applied
            refine realsMembers_iff.mpr ?_
            simp only [mem_append, mem_singleton]
            rintro member (inside | rfl)
            · exact realsMembers_iff.mp isDoc member inside
            · exact isChild
      · split at applied
        · cases applied
        · simp only [bind_eq_bind, bind_eq_some_iff, Option.some.injEq] at applied
          obtain ⟨child, applied, rfl⟩ := applied
          exact ⟨ih (by simp) applied, trivial⟩
      · cases applied
    | index spec =>
      unfold applyPut at applied
      split at applied
      · rename_i items
        have isDoc : RealsItems holds items := all _ rfl
        simp only [bind_eq_bind, bind_eq_some_iff] at applied
        obtain ⟨index, -, applied⟩ := applied
        split at applied
        · simp only [bind_eq_some_iff, Option.some.injEq] at applied
          obtain ⟨child, applied, rfl⟩ := applied
          refine realsItems_set isDoc (ih ?_ applied)
          intro doc found
          exact realsItems_iff.mp isDoc doc (mem_of_getElem? found)
        · split at applied
          · simp only [bind_eq_some_iff, Option.some.injEq] at applied
            obtain ⟨child, applied, rfl⟩ := applied
            have isChild := ih (by simp) applied
            refine realsItems_iff.mpr ?_
            simp only [mem_append, mem_singleton]
            rintro item (inside | rfl)
            · exact realsItems_iff.mp isDoc item inside
            · exact isChild
          · cases applied
      · split at applied
        · simp only [bind_eq_bind, bind_eq_some_iff, Option.some.injEq] at applied
          obtain ⟨child, applied, rfl⟩ := applied
          exact ⟨ih (by simp) applied, trivial⟩
        · cases applied
      · cases applied

theorem reals_put {value : Json} {path : Path} {mode : PutMode} (all : doc.Reals holds)
    (isValue : value.Reals holds) : (put doc path value mode).Reals holds := by
  unfold put
  cases applied : applyPut value mode path.steps (some doc) with
  | none => exact all
  | some next =>
    refine reals_applyPut isValue ?_ applied
    intro other same
    cases same
    exact all

theorem reals_applyRemove : ∀ {steps : List Step} {doc next : Json}, doc.Reals holds ->
    applyRemove steps doc = some next -> next.Reals holds := by
  intro steps
  induction steps with
  | nil =>
    intro doc next all removed
    simp [applyRemove] at removed
  | cons step steps ih =>
    intro doc next all removed
    cases step with
    | key key =>
      unfold applyRemove at removed
      split at removed
      · rename_i members
        have isDoc : RealsMembers holds members := all
        simp only [bind_eq_bind, bind_eq_some_iff] at removed
        obtain ⟨pos, -, removed⟩ := removed
        split at removed
        · cases removed
          refine realsMembers_iff.mpr ?_
          intro member inside
          exact realsMembers_iff.mp isDoc member (mem_of_mem_eraseIdx inside)
        · simp only [bind_eq_some_iff, Option.some.injEq] at removed
          obtain ⟨child, ⟨member, found, removed⟩, rfl⟩ := removed
          exact realsMembers_modify isDoc
            (ih (realsMembers_iff.mp isDoc member (mem_of_getElem? found)) removed)
      · cases removed
    | index spec =>
      unfold applyRemove at removed
      split at removed
      · rename_i items
        have isDoc : RealsItems holds items := all
        simp only [bind_eq_bind, bind_eq_some_iff] at removed
        obtain ⟨index, -, removed⟩ := removed
        split at removed
        · cases removed
        split at removed
        · cases removed
          refine realsItems_iff.mpr ?_
          intro item inside
          exact realsItems_iff.mp isDoc item (mem_of_mem_eraseIdx inside)
        · simp only [bind_eq_some_iff, Option.some.injEq] at removed
          obtain ⟨child, ⟨item, found, removed⟩, rfl⟩ := removed
          exact realsItems_set isDoc
            (ih (realsItems_iff.mp isDoc item (mem_of_getElem? found)) removed)
      · cases removed

/-! ## Replacing the numbers -/

theorem modify_mapMember (members : List (String × Json)) (pos : Nat) (child : Json) :
    (members.map (mapMember f)).modify pos (fun member => (member.1, child.mapReals f)) =
      (members.modify pos fun member => (member.1, child)).map (mapMember f) := by
  apply ext_getElem?
  intro index
  simp only [List.getElem?_modify, getElem?_map, Option.map_eq_map, Option.map_map]
  congr 1
  funext member
  simp only [Function.comp_apply]
  split <;> rfl

theorem applyPut_mapReals (value : Json) (mode : PutMode) (steps : List Step)
    (current : Option Json) :
    applyPut (value.mapReals f) mode steps (current.map (mapReals f)) =
      (applyPut value mode steps current).map (mapReals f) := by
  induction steps generalizing current with
  | nil =>
    cases current with
    | none => cases mode <;> rfl
    | some doc => cases mode <;> rfl
  | cons step steps ih =>
    have below := ih none
    simp only [map_none] at below
    cases step with
    | key key =>
      have build : (do
          let child <- applyPut (value.mapReals f) mode steps none
          some (Json.object [(key, child)])) = (do
          let child <- applyPut value mode steps none
          some (Json.object [(key, child)])).map (mapReals f) := by
        rw [below]
        cases applyPut value mode steps none <;> rfl
      cases current with
      | none =>
        simp only [applyPut, map_none]
        by_cases replacing : mode = .replace
        · rw [if_pos replacing, if_pos replacing]
          rfl
        · rw [if_neg replacing, if_neg replacing]
          exact build
      | some doc =>
        cases doc with
        | object members =>
          have same : ((fun member : String × Json => member.1 == key) ∘ mapMember f) =
              fun member => member.1 == key := rfl
          simp only [applyPut, map_some, mapReals, mapMembers_eq, findIdx?_map, same]
          cases members.findIdx? (fun member => member.1 == key) with
          | none =>
            dsimp only
            by_cases replacing : mode = .replace
            · rw [if_pos replacing, if_pos replacing]
              rfl
            · rw [if_neg replacing, if_neg replacing, below]
              cases applyPut value mode steps none with
              | none => rfl
              | some child =>
                simp [mapReals, mapMembers_eq, mapMember]
          | some pos =>
            dsimp only
            have there := ih (members[pos]?.map Prod.snd)
            have inner : (members.map (mapMember f))[pos]?.map Prod.snd =
                (members[pos]?.map Prod.snd).map (mapReals f) := by
              rw [getElem?_map, Option.map_map, Option.map_map]
              rfl
            rw [inner, there]
            cases applyPut value mode steps (members[pos]?.map Prod.snd) with
            | none => rfl
            | some child =>
              simp [mapReals, mapMembers_eq, modify_mapMember]
        | _ => rfl
    | index spec =>
      cases current with
      | none =>
        simp only [applyPut, map_none]
        split
        · rw [below]
          cases applyPut value mode steps none <;> rfl
        · rfl
      | some doc =>
        cases doc with
        | array items =>
          simp only [applyPut, map_some, mapReals, mapItems_eq, length_map]
          cases spec.resolve items.length with
          | none => rfl
          | some index =>
            simp only [bind_eq_bind, bind_some]
            split
            · rw [getElem?_map, ih]
              cases applyPut value mode steps items[index]? with
              | none => rfl
              | some child => simp [mapReals, mapItems_eq, map_set]
            · split
              · rw [below]
                cases applyPut value mode steps none with
                | none => rfl
                | some child => simp [mapReals, mapItems_eq]
              · rfl
        | _ => rfl

theorem put_mapReals (doc value : Json) (path : Path) (mode : PutMode) :
    put (doc.mapReals f) path (value.mapReals f) mode = (put doc path value mode).mapReals f := by
  have applied := applyPut_mapReals (f := f) value mode path.steps (some doc)
  simp only [map_some] at applied
  rw [put, put, applied]
  cases applyPut value mode path.steps (some doc) <;> rfl

mutual

theorem mapReals_congr {g : F64 -> String -> F64 × String}
    (agree : ∀ value written, holds value written -> f value written = g value written) (doc : Json)
    (all : doc.Reals holds) : doc.mapReals f = doc.mapReals g := by
  cases doc with
  | real value written => simp only [mapReals, agree value written all]
  | array items => rw [mapReals, mapReals, mapItems_congr agree items all]
  | object members => rw [mapReals, mapReals, mapMembers_congr agree members all]
  | _ => rfl

theorem mapItems_congr {g : F64 -> String -> F64 × String}
    (agree : ∀ value written, holds value written -> f value written = g value written)
    (items : List Json) (all : RealsItems holds items) : mapItems f items = mapItems g items := by
  cases items with
  | nil => rfl
  | cons item items =>
    rw [mapItems, mapItems, mapReals_congr agree item all.1, mapItems_congr agree items all.2]

theorem mapMembers_congr {g : F64 -> String -> F64 × String}
    (agree : ∀ value written, holds value written -> f value written = g value written)
    (members : List (String × Json)) (all : RealsMembers holds members) :
    mapMembers f members = mapMembers g members := by
  cases members with
  | nil => rfl
  | cons member members =>
    obtain ⟨key, value⟩ := member
    rw [mapMembers, mapMembers, mapReals_congr agree value all.1,
      mapMembers_congr agree members all.2]

end

mutual

theorem mapReals_id (doc : Json) : doc.mapReals (fun value written => (value, written)) = doc := by
  cases doc with
  | array items => rw [mapReals, mapItems_id items]
  | object members => rw [mapReals, mapMembers_id members]
  | _ => rfl

theorem mapItems_id (items : List Json) :
    mapItems (fun value written => (value, written)) items = items := by
  cases items with
  | nil => rfl
  | cons item items => rw [mapItems, mapReals_id item, mapItems_id items]

theorem mapMembers_id (members : List (String × Json)) :
    mapMembers (fun value written => (value, written)) members = members := by
  cases members with
  | nil => rfl
  | cons member members =>
    obtain ⟨key, value⟩ := member
    rw [mapMembers, mapReals_id value, mapMembers_id members]

end

mutual

theorem Reals.both {also both : F64 -> String -> Prop}
    (imp : ∀ value written, holds value written -> also value written -> both value written)
    (doc : Json) (all : doc.Reals holds) (allAlso : doc.Reals also) : doc.Reals both := by
  cases doc with
  | real value written => exact imp value written all allAlso
  | array items => exact RealsItems.both imp items all allAlso
  | object members => exact RealsMembers.both imp members all allAlso
  | _ => exact trivial

theorem RealsItems.both {also both : F64 -> String -> Prop}
    (imp : ∀ value written, holds value written -> also value written -> both value written)
    (items : List Json) (all : RealsItems holds items) (allAlso : RealsItems also items) :
    RealsItems both items := by
  cases items with
  | nil => exact trivial
  | cons item items =>
    exact ⟨Reals.both imp item all.1 allAlso.1, RealsItems.both imp items all.2 allAlso.2⟩

theorem RealsMembers.both {also both : F64 -> String -> Prop}
    (imp : ∀ value written, holds value written -> also value written -> both value written)
    (members : List (String × Json)) (all : RealsMembers holds members)
    (allAlso : RealsMembers also members) : RealsMembers both members := by
  cases members with
  | nil => exact trivial
  | cons member members =>
    obtain ⟨key, value⟩ := member
    exact ⟨Reals.both imp value all.1 allAlso.1, RealsMembers.both imp members all.2 allAlso.2⟩

end

theorem Reals.imp {better : F64 -> String -> Prop}
    (imp : ∀ value written, holds value written -> better value written) (all : doc.Reals holds) :
    doc.Reals better :=
  Reals.both (fun value written good _ => imp value written good) doc all all

/-- A number whose text is of the grammar and reads as its double. -/
def Rereads (value : F64) (written : String) : Prop :=
  RealText value written ∧ value = readF64 written.toList

theorem reread_settled (settled : doc.Reals Rereads) : doc.reread = doc := by
  have same := mapReals_congr (f := readText) (g := fun value written => (value, written))
    (fun value written good => by rw [readText, <- good.2]) doc settled
  exact same.trans (mapReals_id doc)

end InlaySql.Json
