import Formula.Json.Reader
import Formula.Json.Writer
import Formula.Value.Text

/-!
# Values as JSON

Absent values and callables have no JSON form. As items they become null and as entries they are
left out. Numbers that are not finite become null, and zero loses its sign.
-/

namespace Formula.Value

mutual

def ofJson : Json → Value
  | .null => .null
  | .bool b => .bool b
  | .number n => .number n
  | .string s => .string s
  | .array items => .list (ofItems items)
  | .object entries => .map (ofEntries entries)

def ofItems : List Json → List Value
  | [] => []
  | item :: rest => ofJson item :: ofItems rest

def ofEntries : List (String × Json) → List (String × Value)
  | [] => []
  | (key, value) :: rest => (key, ofJson value) :: ofEntries rest

end

def numberToJson (n : Binary64) : Json :=
  if n.isZero then .number (.zero false) else if n.isFinite then .number n else .null

mutual

def toJson? : Value → Option Json
  | .absent | .callable _ => none
  | .null => some .null
  | .bool b => some (.bool b)
  | .number n => some (numberToJson n)
  | .string s => some (.string s)
  | .list items => some (.array (itemsToJson items))
  | .map entries => some (.object (entriesToJson entries))

def itemsToJson : List Value → List Json
  | [] => []
  | item :: rest => item.toJson?.getD .null :: itemsToJson rest

def entriesToJson : List (String × Value) → List (String × Json)
  | [] => []
  | (key, value) :: rest =>
    match value.toJson? with
    | some json => (key, json) :: entriesToJson rest
    | none => entriesToJson rest

end

/-- The value of JSON text; an empty map if the text is malformed. -/
def readJson (v : Value) : Value :=
  match Json.read? v.chars with
  | some json => ofJson json
  | none => .map []

end Formula.Value
