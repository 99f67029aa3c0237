import Formula.Value.Text

/-!
# The order of values

Strings and objects are ordered by their text forms, which is the order of the UTF-8 bytes. As soon
as one side has no text, numbers are compared, and NaN is unordered.
-/

namespace Formula.Value

/-- Whether the value is compared as text when the other one is too. -/
def isTextual : Value → Bool
  | .string _ | .list _ | .map _ | .callable _ => true
  | _ => false

def compare? (a b : Value) : Option Ordering :=
  if a.isTextual && b.isTextual then some (compare a.text b.text)
  else a.toNumber.compare? b.toNumber

def isBelow (a b : Value) : Value :=
  .bool (compare? a b == some .lt)

def isAbove (a b : Value) : Value :=
  .bool (compare? a b == some .gt)

def isAtMost (a b : Value) : Value :=
  .bool (compare? a b == some .lt || compare? a b == some .eq)

def isAtLeast (a b : Value) : Value :=
  .bool (compare? a b == some .gt || compare? a b == some .eq)

end Formula.Value
