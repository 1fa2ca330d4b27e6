import InlaySql.Json.Document

/-!
# Paths into a document

Reading, writing and removing the node a path names. Writing shares one walk between its
three modes; it may build the containers a path goes on through, and leaves the document
alone when the path cannot be satisfied.
-/

namespace InlaySql.Json

/-- The three spellings of a bracketed step. -/
inductive IndexSpec where
  | exact (n : Nat)
  | append
  | fromEnd (n : Nat)
  deriving DecidableEq, Repr

/-- The index named in an array of this length, which may be the length itself. -/
def IndexSpec.resolve : IndexSpec -> Nat -> Option Nat
  | .exact n, _ => some n
  | .append, len => some len
  | .fromEnd n, len => if n ≤ len then some (len - n) else none

/-- One step of a path. -/
inductive Step where
  | key (key : String)
  | index (spec : IndexSpec)
  deriving DecidableEq, Repr

structure Path where
  steps : List Step
  deriving DecidableEq, Repr

/-- The node one step leads to. -/
def child : Json -> Step -> Option Json
  | .object members, .key key => (members.find? fun member => member.1 == key).map Prod.snd
  | .array items, .index spec => (spec.resolve items.length).bind (items[·]?)
  | _, _ => none

def get (doc : Json) (path : Path) : Option Json := path.steps.foldlM child doc

/-- `json_set`, `json_insert` and `json_replace`. -/
inductive PutMode where
  | set
  | insert
  | replace
  deriving DecidableEq, Repr

def applyPut (value : Json) (mode : PutMode) : List Step -> Option Json -> Option Json
  | [], current =>
    match current, mode with
    | some _, .insert => none
    | none, .replace => none
    | _, _ => some value
  | .key key :: rest, current =>
    match current with
    | some (.object members) =>
      match members.findIdx? fun member => member.1 == key with
      | some pos => do
          let child <- applyPut value mode rest (members[pos]?.map Prod.snd)
          some (.object (members.modify pos fun member => (member.1, child)))
      | none =>
        if mode = .replace then none
        else do
          let child <- applyPut value mode rest none
          some (.object (members ++ [(key, child)]))
    | none =>
      if mode = .replace then none
      else do
        let child <- applyPut value mode rest none
        some (.object [(key, child)])
    | some _ => none
  | .index spec :: rest, current =>
    match current with
    | some (.array items) => do
        let i <- spec.resolve items.length
        if i < items.length then
          let child <- applyPut value mode rest items[i]?
          some (.array (items.set i child))
        else if i = items.length ∧ mode ≠ .replace then
          let child <- applyPut value mode rest none
          some (.array (items ++ [child]))
        else none
    | none =>
      if mode ≠ .replace ∧ spec.resolve 0 = some 0 then do
        let child <- applyPut value mode rest none
        some (.array [child])
      else none
    | some _ => none

def put (doc : Json) (path : Path) (value : Json) (mode : PutMode) : Json :=
  (applyPut value mode path.steps (some doc)).getD doc

def applyRemove : List Step -> Json -> Option Json
  | [], _ => none
  | .key key :: rest, current =>
    match current with
    | .object members => do
        let pos <- members.findIdx? fun member => member.1 == key
        if rest.isEmpty then some (.object (members.eraseIdx pos))
        else
          let child <- members[pos]?.bind fun member => applyRemove rest member.2
          some (.object (members.modify pos fun member => (member.1, child)))
    | _ => none
  | .index spec :: rest, current =>
    match current with
    | .array items => do
        let i <- spec.resolve items.length
        if items.length ≤ i then none
        else if rest.isEmpty then some (.array (items.eraseIdx i))
        else
          let child <- items[i]?.bind (applyRemove rest)
          some (.array (items.set i child))
    | _ => none

def remove (doc : Json) (path : Path) : Option Json := applyRemove path.steps doc

end InlaySql.Json
