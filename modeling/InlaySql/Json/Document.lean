import InlaySql.Sql.Value

/-!
# JSON documents

A document keeps the order of its members and its duplicate keys, and a number that does
not read as an integer keeps the text it was written as. Equality ignores that text.
-/

namespace InlaySql

open Sql

/-- A parsed JSON value. -/
inductive Json where
  | null
  | bool (value : Bool)
  | int (value : Int64)
  | real (value : F64) (text : String)
  | text (value : String)
  | array (items : List Json)
  | object (members : List (String × Json))
  deriving Repr

namespace Json

mutual

/-- `PartialEq for Json`: two numbers are equal when their doubles are. -/
def same : Json -> Json -> Bool
  | .null, .null => true
  | .bool left, .bool right => left == right
  | .int left, .int right => left == right
  | .real left _, .real right _ => left.eq right
  | .text left, .text right => left == right
  | .array left, .array right => sameItems left right
  | .object left, .object right => sameMembers left right
  | _, _ => false

def sameItems : List Json -> List Json -> Bool
  | [], [] => true
  | left :: lefts, right :: rights => left.same right && sameItems lefts rights
  | _, _ => false

def sameMembers : List (String × Json) -> List (String × Json) -> Bool
  | [], [] => true
  | (leftKey, left) :: lefts, (rightKey, right) :: rights =>
    leftKey == rightKey && left.same right && sameMembers lefts rights
  | _, _ => false

end

end Json

end InlaySql
