import Formula.Decimal.Layout
import Formula.Json.Basic

/-!
# Writing JSON

The compact form, without blanks. Strings escape quotes, backslashes and control characters only.
-/

namespace Formula.Json

/-- Whole numbers beyond `2 ^ 53` and fractions: positional up to 16 digits before the point and 4
zeros after it. -/
def layout : Layout where
  nan := "null"
  infinity := "null"
  signedZero := false
  pointZero := true
  plusSign := true
  least := -5
  greatest := 15
  tie := .toEven

/-- The greatest whole number below which every whole number is a double precision number. -/
def greatestExact : Nat :=
  9007199254740991

def numberChars (n : Binary64) : List Char :=
  match n.toInt? with
  | some i =>
    if i.natAbs ≤ greatestExact then Layout.signed (decide (i < 0)) (Nat.toDigits 10 i.natAbs)
    else layout.chars n
  | none => if n.isFinite then layout.chars n else "null".toList

def escape (c : Char) : List Char :=
  if c = '"' then ['\\', '"']
  else if c = '\\' then ['\\', '\\']
  else if c = '\x08' then ['\\', 'b']
  else if c = '\t' then ['\\', 't']
  else if c = '\n' then ['\\', 'n']
  else if c = '\x0c' then ['\\', 'f']
  else if c = '\r' then ['\\', 'r']
  else if c.toNat < 0x20 then
    ['\\', 'u', '0', '0', Nat.digitChar (c.toNat / 16), Nat.digitChar (c.toNat % 16)]
  else [c]

def stringChars (s : String) : List Char :=
  '"' :: s.toList.flatMap escape ++ ['"']

mutual

def chars : Json → List Char
  | .null => "null".toList
  | .bool true => "true".toList
  | .bool false => "false".toList
  | .number n => numberChars n
  | .string s => stringChars s
  | .array items => '[' :: itemChars items ++ [']']
  | .object entries => '\x7b' :: entryChars entries ++ ['\x7d']

def itemChars : List Json → List Char
  | [] => []
  | [item] => item.chars
  | item :: next :: rest => item.chars ++ ',' :: itemChars (next :: rest)

def entryChars : List (String × Json) → List Char
  | [] => []
  | [(key, value)] => stringChars key ++ ':' :: value.chars
  | (key, value) :: next :: rest =>
    stringChars key ++ ':' :: value.chars ++ ',' :: entryChars (next :: rest)

end

end Formula.Json
