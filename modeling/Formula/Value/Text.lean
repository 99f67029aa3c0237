import Formula.Numeral
import Formula.Value.Basic

/-!
# Values as text and as numbers
-/

namespace Formula.Value

mutual

/-- The text form of a value. Absent and null items of a list leave their places empty. -/
def chars : Value → List Char
  | .absent => "undefined".toList
  | .null => "null".toList
  | .bool true => "true".toList
  | .bool false => "false".toList
  | .number n => Numeral.write n
  | .string s => s.toList
  | .list items => itemChars items
  | .map _ => "[object Object]".toList
  | .callable _ => "function".toList

def itemChars : List Value → List Char
  | [] => []
  | [item] => if item.isNothing then [] else item.chars
  | item :: next :: rest =>
    (if item.isNothing then [] else item.chars) ++ ',' :: itemChars (next :: rest)

end

def text (v : Value) : String :=
  String.ofList v.chars

/-- The number that a value stands for. A list stands for the number that its text form spells. -/
def toNumber : Value → Binary64
  | .absent | .map _ | .callable _ => .nan
  | .null => .zero false
  | .bool b => .ofNat b.toNat
  | .number n => n
  | .string s => Numeral.read s.toList
  | .list items => Numeral.read (itemChars items)

/-- The value of text without quotes: the number of which it is the written form, or a string. -/
def ofUnquoted (text : List Char) : Value :=
  let n := Numeral.read text
  if !n.isNaN && Numeral.write n == text then .number n else .string (String.ofList text)

theorem ofUnquoted_of_read {n : Binary64} (number : n ≠ .nan) (reads : Numeral.read (Numeral.write n) = n) :
    ofUnquoted (Numeral.write n) = .number n := by
  rw [ofUnquoted, reads, Binary64.isNaN_eq_false number, Bool.not_false, Bool.true_and, beq_self_eq_true, if_pos rfl]

end Formula.Value
