import Formula.Value.Equality

/-!
# Truth

The connectives give one of their operands back; only negation and the equalities give truth values.
-/

namespace Formula.Value

/-- Whether a value counts as true. Nothing, zero, NaN and the empty string do not. -/
def holds : Value → Bool
  | .absent | .null => false
  | .bool b => b
  | .number n => !n.isZero && !n.isNaN
  | .string s => s != ""
  | .list _ | .map _ | .callable _ => true

def both (a b : Value) : Value :=
  if a.holds then b else a

def either (a b : Value) : Value :=
  if a.holds then a else b

/-- The text `false` counts as false. -/
def negation : Value → Value
  | .string "false" => .bool true
  | v => .bool !v.holds

/-- Loose equality, or any value that holds beside the text `true`: a flag that is set equals `true`
also where that arrives as text. -/
def isEqual (a b : Value) : Value :=
  .bool (a.looselyEqual b || (a.holds && b.looselyEqual (.string "true")))

def isUnequal (a b : Value) : Value :=
  .bool !a.looselyEqual b

end Formula.Value
