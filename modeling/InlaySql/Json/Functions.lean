import InlaySql.Json.Parse
import InlaySql.Json.Path
import InlaySql.Json.RealText

/-!
# The functions

The functions that make a document, over arguments that are such calls themselves or any
other expression with the value it evaluates to. An argument that is itself such a call is
spliced: its text is parsed again, and the one node a single path extracts is taken as it is.
-/

namespace InlaySql.Json

open Lib Sql

/-- An argument: a call of one of the functions, or any other expression. -/
inductive Argument where
  | other (outcome : Except Error Value)
  | json (value : Argument)
  | jsonExtract (doc : Argument) (paths : List Argument)
  | jsonArray (args : List Argument)
  | jsonObject (pairs : List (Argument × Argument))
  | jsonQuote (value : Argument)
  | jsonPut (mode : PutMode) (doc : Argument) (pairs : List (Argument × Argument))
  | jsonRemove (doc : Argument) (paths : List Argument)
  | arrow (left right : Argument)

def isJsonProducing : Argument -> Bool
  | .other _ | .jsonQuote _ => false
  | _ => true

section

variable (fromUtf8Lossy : Bytes -> String) (parsePath : String -> Option Path)

def asText : Value -> Except Error String
  | .null => .error (.type "NULL has no text form; it propagates instead")
  | .integer value => .ok (String.ofList (decimal value))
  | .real value => .ok (realToText value)
  | .text value => .ok value
  | .blob value => .ok (fromUtf8Lossy value)
  | .vector _ => .error (.type "a VECTOR value has no text form")

def jsonDoc (value : Value) : Except Error (Option Json) :=
  match value with
  | .null => .ok none
  | .vector _ => .error (.type "a VECTOR value is not JSON")
  | value => do
      let text <- asText fromUtf8Lossy value
      match parse text with
      | .ok doc => .ok (some doc)
      | .error _ => .error (.type "malformed JSON")

def jsonPathArg (value : Value) : Except Error (Option Path) :=
  match value with
  | .null => .ok none
  | value => do
      let text <- asText fromUtf8Lossy value
      match parsePath text with
      | some path => .ok (some path)
      | none => .error (.type s!"bad JSON path: '{text}'")

def jsonLeaf : Value -> Except Error Json
  | .null => .ok .null
  | .integer value => .ok (.int (Int64.ofInt value))
  | .real value => .ok (.real value (realToText value))
  | .text value => .ok (.text value)
  | .blob _ => .error (.type "JSON cannot hold BLOB values")
  | .vector _ => .error (.type "JSON cannot hold VECTOR values")

def jsonToValue : Json -> Value
  | .null => .null
  | .bool value => .integer (if value then 1 else 0)
  | .int value => .integer value.toInt
  | .real value _ => .real value
  | .text value => .text value
  | node => .text (write node)

def jsonFn (value : Value) : Except Error Value := do
  match <- jsonDoc fromUtf8Lossy value with
  | some doc => .ok (.text (write doc))
  | none => .ok .null

/-- The paths, up to the first that is `NULL`. -/
def jsonPaths : List Value -> Except Error (Option (List Path))
  | [] => .ok (some [])
  | value :: values => do
      match <- jsonPathArg fromUtf8Lossy parsePath value with
      | none => .ok none
      | some path => return (<- jsonPaths values).map (path :: ·)

def jsonExtractFn (value : Value) (paths : List Value) : Except Error Value := do
  match <- jsonDoc fromUtf8Lossy value with
  | none => .ok .null
  | some doc =>
    match <- jsonPaths fromUtf8Lossy parsePath paths with
    | none => .ok .null
    | some [path] => .ok ((get doc path).elim .null jsonToValue)
    | some paths => .ok (.text (write (.array (paths.map fun path => (get doc path).getD .null))))

/-- The removals of `json_remove_fn`, one path after the other. -/
def removeAll (doc : Json) : List Value -> Except Error (Option Json)
  | [] => .ok (some doc)
  | value :: values => do
      match <- jsonPathArg fromUtf8Lossy parsePath value with
      | none => .ok none
      | some path =>
        if path.steps.isEmpty then .ok none else removeAll ((remove doc path).getD doc) values

def jsonRemoveFn (value : Value) (paths : List Value) : Except Error Value := do
  match <- jsonDoc fromUtf8Lossy value with
  | none => .ok .null
  | some doc =>
    match <- removeAll fromUtf8Lossy parsePath doc paths with
    | none => .ok .null
    | some doc => .ok (.text (write doc))

/-- `json_arrow` for `->`. -/
def jsonArrow (left right : Value) : Except Error Value := do
  match <- jsonDoc fromUtf8Lossy left with
  | none => .ok .null
  | some doc =>
    match <- jsonPathArg fromUtf8Lossy parsePath right with
    | none => .ok .null
    | some path => .ok ((get doc path).elim .null fun node => .text (write node))

/-- The node of a call's value in `json_composed_value`. -/
def spliceValue : Value -> Except Error Json
  | .null => .ok .null
  | .text word =>
    match parse word with
    | .ok node => .ok node
    | .error _ => .error (.type "malformed JSON")
  | value => jsonLeaf value

mutual

def evaluate : Argument -> Except Error Value
  | .other outcome => outcome
  | .json value => do jsonFn fromUtf8Lossy (<- evaluate value)
  | .jsonExtract doc paths => do
      let value <- evaluate doc
      jsonExtractFn fromUtf8Lossy parsePath value (<- evaluateAll paths)
  | .jsonArray args => do
      let items <- composedItems args
      .ok (.text (write (.array items)))
  | .jsonObject pairs => do
      let members <- composedMembers pairs
      .ok (.text (write (.object members)))
  | .jsonQuote value => do
      let node <- jsonLeaf (<- evaluate value)
      .ok (.text (write node))
  | .jsonPut mode doc pairs => do
      match <- jsonDoc fromUtf8Lossy (<- evaluate doc) with
      | none => .ok .null
      | some doc =>
        let doc <- putAll mode doc pairs
        .ok (.text (write doc))
  | .jsonRemove doc paths => do
      let value <- evaluate doc
      jsonRemoveFn fromUtf8Lossy parsePath value (<- evaluateAll paths)
  | .arrow left right => do
      let value <- evaluate left
      jsonArrow fromUtf8Lossy parsePath value (<- evaluate right)
termination_by arg => (sizeOf arg, 0)

def evaluateAll : List Argument -> Except Error (List Value)
  | [] => .ok []
  | arg :: args => do
      let value <- evaluate arg
      return value :: (<- evaluateAll args)
termination_by args => (sizeOf args, 0)

def jsonComposedValue (arg : Argument) : Except Error Json :=
  match arg with
  | .jsonExtract doc [path] => do
      match <- jsonDoc fromUtf8Lossy (<- evaluate doc) with
      | none => .ok .null
      | some doc =>
        match <- jsonPathArg fromUtf8Lossy parsePath (<- evaluate path) with
        | none => .ok .null
        | some path => .ok ((get doc path).getD .null)
  | arg => do
      let value <- evaluate arg
      if isJsonProducing arg then spliceValue value else jsonLeaf value
termination_by (sizeOf arg, 1)

/-- The elements of `json_array_fn`. -/
def composedItems : List Argument -> Except Error (List Json)
  | [] => .ok []
  | arg :: args => do
      let node <- jsonComposedValue arg
      return node :: (<- composedItems args)
termination_by args => (sizeOf args, 0)

/-- The members of `json_object_fn`. -/
def composedMembers : List (Argument × Argument) -> Except Error (List (String × Json))
  | [] => .ok []
  | (label, value) :: pairs => do
      match <- evaluate label with
      | .text key =>
        let node <- jsonComposedValue value
        return (key, node) :: (<- composedMembers pairs)
      | _ => .error (.type "json_object() labels must be TEXT")
termination_by pairs => (sizeOf pairs, 0)

/-- The pairs of `json_put_fn`, one after the other. -/
def putAll (mode : PutMode) (doc : Json) : List (Argument × Argument) -> Except Error Json
  | [] => .ok doc
  | (path, value) :: pairs => do
      match <- jsonPathArg fromUtf8Lossy parsePath (<- evaluate path) with
      | none => putAll mode doc pairs
      | some path =>
        let node <- jsonComposedValue value
        putAll mode (put doc path node mode) pairs
termination_by pairs => (sizeOf pairs, 0)

end

end

end InlaySql.Json
