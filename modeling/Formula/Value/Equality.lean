import Formula.Value.Text

/-!
# Three equalities

`same` compares structure, takes NaN for equal to itself and maps without regard to order. `strictlyEqual`
differs on NaN only. `looselyEqual` first turns what it compares into numbers or text.
-/

namespace Formula.Value

mutual

def same : Value → Value → Bool
  | .absent, .absent | .null, .null => true
  | .bool a, .bool b => a == b
  | .number a, .number b => a.equal b || (a.isNaN && b.isNaN)
  | .string a, .string b => a == b
  | .list a, .list b => sameItems a b
  | .map a, .map b => sameBindings a b && b.all fun entry => Entries.hasKey entry.1 a
  | .callable f, .callable g => f == g
  | _, _ => false

def sameItems : List Value → List Value → Bool
  | [], [] => true
  | a :: as, b :: bs => same a b && sameItems as bs
  | _, _ => false

/-- Whether every binding of the first map that is not hidden has an equal one in the second. -/
def sameBindings : List (String × Value) → List (String × Value) → Bool
  | [], _ => true
  | (key, a) :: rest, other =>
    (Entries.hasKey key rest ||
      match Entries.lookup? key other with
      | some b => same a b
      | none => false) && sameBindings rest other

end

instance : BEq Value :=
  ⟨same⟩

/-- Structural equality, except that NaN equals nothing at the top. -/
def strictlyEqual : Value → Value → Bool
  | .number a, .number b => a.equal b
  | a, b => a.same b

/-- What loose equality compares. -/
inductive Scalar where
  | number (n : Binary64)
  | text (t : List Char)

/-- Truth values are compared as numbers, objects by their text form. -/
def scalar : Value → Scalar
  | .bool b => .number (.ofNat b.toNat)
  | .number n => .number n
  | v => .text v.chars

/-- Text that is compared with a number stands for the number that it spells. -/
def Scalar.equal : Scalar → Scalar → Bool
  | .number a, .number b => a.equal b
  | .text a, .text b => a == b
  | .number n, .text t | .text t, .number n => n.equal (Numeral.read t)

/-- Absent and null equal each other and nothing else; two objects are compared by structure. -/
def looselyEqual (a b : Value) : Bool :=
  if a.isNothing || b.isNothing then a.isNothing && b.isNothing
  else if a.isObject && b.isObject then a.same b
  else a.scalar.equal b.scalar

end Formula.Value
