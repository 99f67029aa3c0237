import Formula.Value.Equality

/-!
# Arithmetic of values
-/

namespace Formula.Value

def times (a b : Value) : Value :=
  .number (a.toNumber.mul b.toNumber)

def dividedBy (a b : Value) : Value :=
  .number (a.toNumber.div b.toNumber)

def plus (a b : Value) : Value :=
  .number (a.toNumber.add b.toNumber)

/-- The difference of numbers; a list loses the items loosely equal to `b`. -/
def minus (a b : Value) : Value :=
  match a with
  | .list items => .list (items.filter fun item => !item.looselyEqual b)
  | _ => .number (a.toNumber.sub b.toNumber)

def asNumber (v : Value) : Value :=
  .number v.toNumber

/-- Zero is negated to negative zero, which keeps the sign of `-0.5` until its digits are joined. -/
def negated (v : Value) : Value :=
  .number v.toNumber.neg

end Formula.Value
