import Formula.Binary64.Arithmetic
import Formula.Decimal.Layout
import Formula.Text.Blank

/-!
# Numerals

Any text is read as a number, NaN if it spells none, and any number has a written form.
-/

namespace Formula.Numeral

/-- A sign in front of a text. -/
def splitSign : List Char → Bool × List Char
  | '-' :: rest => (true, rest)
  | '+' :: rest => (false, rest)
  | text => (false, text)

/-- The digits after a point, if there is one, and what follows. -/
def splitFraction : List Char → List Char × List Char
  | '.' :: rest => (rest.takeWhile Char.isDigit, rest.dropWhile Char.isDigit)
  | text => ([], text)

/-- An exponent that ends the text; none is zero. -/
def exponent? : List Char → Option Int
  | [] => some 0
  | mark :: rest =>
    let (negative, digits) := splitSign rest
    if (mark = 'e' ∨ mark = 'E') ∧ digits ≠ [] ∧ digits.all Char.isDigit then
      let magnitude : Int := (Nat.ofDigitChars 10 digits 0 : Nat)
      some (if negative then -magnitude else magnitude)
    else none

/-- A decimal numeral: a sign, digits with a point before, among or after them, an exponent. Only
the digits are required. -/
def decimal? (text : List Char) : Option (Bool × Decimal) :=
  let (negative, unsigned) := splitSign text
  let whole := unsigned.takeWhile Char.isDigit
  let (fraction, rest) := splitFraction (unsigned.dropWhile Char.isDigit)
  if whole = [] ∧ fraction = [] then none
  else (exponent? rest).map fun exponent =>
    (negative, ⟨Nat.ofDigitChars 10 (whole ++ fraction) 0, exponent - fraction.length⟩)

def radix? : Char → Option Nat
  | 'x' | 'X' => some 16
  | 'o' | 'O' => some 8
  | 'b' | 'B' => some 2
  | _ => none

/-- The value of a digit below `radix`; letters of either case follow the ten digits. -/
def digit? (radix : Nat) (c : Char) : Option Nat :=
  let value :=
    if c.isDigit then c.toNat - '0'.toNat
    else if c.isLower then c.toNat - 'a'.toNat + 10
    else if c.isUpper then c.toNat - 'A'.toNat + 10
    else radix
  if value < radix then some value else none

/-- One more digit after those of `n`; the product and the sum are each rounded. -/
def appendDigit (radix : Nat) (n : Binary64) (digit : Nat) : Binary64 :=
  (n.mul (.ofNat radix)).add (.ofNat digit)

/-- The digits of a whole number in another radix, from the first to the last. -/
def ofRadix (radix : Nat) (digits : List Char) : Binary64 :=
  if digits = [] then .nan
  else match digits.mapM (digit? radix) with
    | some values => values.foldl (appendDigit radix) (.zero false)
    | none => .nan

def ofDecimal (text : List Char) : Binary64 :=
  match decimal? text with
  | some (negative, d) => d.toBinary64 negative
  | none => .nan

/-- The number that a text spells, whatever the blanks around it; the empty text spells zero. -/
def read (text : List Char) : Binary64 :=
  match trim text with
  | [] => .zero false
  | text@('0' :: mark :: digits) =>
    match radix? mark with
    | some radix => ofRadix radix digits
    | none => ofDecimal text
  | text =>
    let (negative, name) := splitSign text
    if name = "Infinity".toList then .infinity negative else ofDecimal text

/-- Positional up to 21 digits before the point and 6 zeros after it; zero has no sign. -/
def layout : Layout where
  nan := "NaN"
  infinity := "Infinity"
  signedZero := false
  pointZero := false
  plusSign := true
  least := -6
  greatest := 20
  tie := .up

/-- The written form of a number. -/
def write (n : Binary64) : List Char :=
  layout.chars n

end Formula.Numeral
