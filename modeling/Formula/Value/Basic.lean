import Formula.Binary64.Basic
import Formula.Entries

/-!
# Values

What formulas are evaluated to. No operation on values fails: a value that makes no sense as a
number is NaN, and a lookup that finds nothing is absent.
-/

namespace Formula

/-- A function of the host, known by its name. Two callables are the same function if and only if
their names are equal; what a name does is the host's. -/
structure Callable where
  name : String
deriving DecidableEq

inductive Value where
  /-- No value, as from a lookup that finds nothing. -/
  | absent
  /-- An empty value that was given as such. -/
  | null
  | bool (b : Bool)
  | number (n : Binary64)
  | string (s : String)
  | list (items : List Value)
  | map (entries : List (String × Value))
  | callable (f : Callable)

namespace Value

instance : Inhabited Value :=
  ⟨.absent⟩

def isNothing : Value → Bool
  | .absent | .null => true
  | _ => false

/-- Whether the value is a list, a map or a callable. -/
def isObject : Value → Bool
  | .list _ | .map _ | .callable _ => true
  | _ => false

end Value

end Formula
