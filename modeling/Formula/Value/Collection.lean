import Formula.Value.Equality

/-!
# Lists, text and membership
-/

namespace Formula.Value

/-- The items that a value adds to a list: those of a list, else the value itself. -/
def spliced : Value → List Value
  | .list items => items
  | v => [v]

/-- The texts of both values one after the other. -/
def joined (a b : Value) : Value :=
  .string (String.ofList (a.chars ++ b.chars))

/-- A list gains the items of `b`, a string its text. Nothing else can be extended. -/
def extend (a b : Value) : Value :=
  match a with
  | .list items => .list (items ++ b.spliced)
  | .string s => .string (s ++ b.text)
  | _ => .absent

/-- `a` in front of the items of `b`. -/
def prepend (a b : Value) : Value :=
  .list (a :: b.spliced)

def singleton (v : Value) : Value :=
  .list [v]

/-- Whether `a` is an item of the list `b` or names an entry of the map `b`. -/
def isIn (a b : Value) : Value :=
  .bool <| match b with
    | .list items => items.any fun item => item.strictlyEqual a
    | .map entries => Entries.hasKey a.text entries
    | _ => false

end Formula.Value
