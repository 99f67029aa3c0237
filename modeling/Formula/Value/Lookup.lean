import Formula.Value.Text

/-!
# Lookup
-/

namespace Formula

/-- What callables do. -/
structure Host where
  call : Callable → List Value → Value

namespace Value

/-- The index that a text names. It has no sign and no leading zeros. -/
def index? (name : List Char) : Option Nat :=
  if name.all Char.isDigit then
    let index := Nat.ofDigitChars 10 name 0
    if Nat.toDigits 10 index = name then some index else none
  else none

/-- The property of a value that the text of `key` names. A map without such an entry asks its
callable `get` entry, if it has one. Lists and strings have a length and, by index, their items and
characters. -/
def get (host : Host) (v key : Value) : Value :=
  match v with
  | .map entries =>
    match Entries.lookup? key.text entries, Entries.lookup? "get" entries with
    | some found, _ => found
    | none, some (.callable accessor) => host.call accessor [key]
    | none, _ => .absent
  | .list items =>
    if key.chars = "length".toList then .number (.ofNat items.length)
    else ((index? key.chars).bind (items[·]?)).getD .absent
  | .string s =>
    if key.chars = "length".toList then .number (.ofNat s.length)
    else match (index? key.chars).bind (s.toList[·]?) with
      | some c => .string (String.singleton c)
      | none => .absent
  | _ => .absent

/-- The digits before a point. Negative zero keeps its sign here. -/
def wholePart : Value → List Char
  | .number n => if n.isZero && n.isNegative then ['-', '0'] else Numeral.write n
  | v => v.chars

/-- The number with the digits of `a` before and those of `b` after its point, if there is one.
Otherwise the property `b` of `a`. -/
def dot (host : Host) (a b : Value) : Value :=
  let n := Numeral.read (a.wholePart ++ '.' :: b.chars)
  if n.isNaN then a.get host b else .number n

end Value

end Formula
