import Formula.Binary64.Basic

/-!
# Arithmetic of double precision numbers

Each operation forms its exact result as a whole number or a quotient of units and rounds it once.
-/

namespace Formula.Binary64

def neg : Binary64 → Binary64
  | .nan => .nan
  | .infinity negative => .infinity !negative
  | .finite negative units representable => .finite (!negative) units representable

/-- An exact sum of zero is negative only if both operands are. -/
def add : Binary64 → Binary64 → Binary64
  | .nan, _ | _, .nan => .nan
  | .infinity s, .infinity t => if s = t then .infinity s else .nan
  | .infinity s, .finite .. => .infinity s
  | .finite .., .infinity t => .infinity t
  | .finite s a _, .finite t b _ =>
    let total := signed s a + signed t b
    if total = 0 then zero (s && t) else round (decide (total < 0)) total.natAbs 1

def sub (a b : Binary64) : Binary64 :=
  a.add b.neg

def mul : Binary64 → Binary64 → Binary64
  | .nan, _ | _, .nan => .nan
  | .infinity s, .infinity t => .infinity (s ^^ t)
  | .infinity s, .finite t b _ => if b = 0 then .nan else .infinity (s ^^ t)
  | .finite s a _, .infinity t => if a = 0 then .nan else .infinity (s ^^ t)
  | .finite s a _, .finite t b _ => round (s ^^ t) (a * b) unitsPerOne

/-- A zero divisor gives an infinity, or NaN when the dividend is zero too. -/
def div : Binary64 → Binary64 → Binary64
  | .nan, _ | _, .nan => .nan
  | .infinity _, .infinity _ => .nan
  | .infinity s, .finite t _ _ => .infinity (s ^^ t)
  | .finite s _ _, .infinity t => zero (s ^^ t)
  | .finite s a _, .finite t b _ =>
    if b = 0 then (if a = 0 then .nan else .infinity (s ^^ t))
    else round (s ^^ t) (a * unitsPerOne) b

end Formula.Binary64
