-- JSON documents.

namespace Untype

/-- A JSON document. Fields stay in the order in which they first appear, and a number is
kept as it is written. -/
inductive Json where
  | null
  | bool (value : Bool)
  | number (literal : String)
  | string (value : String)
  | array (items : List Json)
  | object (fields : List (String × Json))

namespace Json

def field? (key : String) : Json → Option Json
  | object fields => fields.lookup key
  | _ => none

def fields? : Json → Option (List (String × Json))
  | object fields => some fields
  | _ => none

/-- Sets a field: an old one keeps its place, a new one comes last. -/
def setField (key : String) (value : Json) : List (String × Json) → List (String × Json)
  | [] => [(key, value)]
  | (k, v) :: rest => if k == key then (k, value) :: rest else (k, v) :: setField key value rest

end Json

end Untype
