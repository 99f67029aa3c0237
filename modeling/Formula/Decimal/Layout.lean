import Formula.Decimal.Basic

/-!
# The written form of numbers

A layout fixes what the shortest digits leave open: where positional writing ends, how whole numbers
and exponents look, and the names of the values that have no digits.
-/

namespace Formula

structure Layout where
  nan : String
  infinity : String
  /-- Whether the sign of zero is written. -/
  signedZero : Bool
  /-- Whether a whole number written positionally ends in `.0`. -/
  pointZero : Bool
  /-- Whether an exponent that is not negative has a sign. -/
  plusSign : Bool
  /-- The least exponent of the first digit that is written positionally. -/
  least : Int
  /-- The greatest exponent of the first digit that is written positionally. -/
  greatest : Int
  tie : Decimal.Tie

namespace Layout

def positional (layout : Layout) (digits : List Char) : Int → List Char
  | .negSucc below => '0' :: '.' :: List.replicate below '0' ++ digits
  | .ofNat leading =>
    if digits.length ≤ leading + 1 then
      digits ++ List.replicate (leading + 1 - digits.length) '0' ++
        (if layout.pointZero then ['.', '0'] else [])
    else digits.take (leading + 1) ++ '.' :: digits.drop (leading + 1)

def exponential (layout : Layout) (digits : List Char) (leading : Int) : List Char :=
  let fraction := digits.drop 1
  let exponent : List Char :=
    match leading with
    | .negSucc below => '-' :: Nat.toDigits 10 (below + 1)
    | .ofNat above => (if layout.plusSign then ['+'] else []) ++ Nat.toDigits 10 above
  digits.take 1 ++ (if fraction.isEmpty then [] else '.' :: fraction) ++ 'e' :: exponent

/-- The written form of a positive decimal. -/
def magnitude (layout : Layout) (d : Decimal) : List Char :=
  if layout.least ≤ d.leading ∧ d.leading ≤ layout.greatest then
    layout.positional d.significant d.leading
  else layout.exponential d.significant d.leading

def signed (negative : Bool) (magnitude : List Char) : List Char :=
  if negative then '-' :: magnitude else magnitude

@[simp] theorem signed_false (magnitude : List Char) : signed false magnitude = magnitude :=
  rfl

@[simp] theorem signed_true (magnitude : List Char) : signed true magnitude = '-' :: magnitude :=
  rfl

def chars (layout : Layout) : Binary64 → List Char
  | .nan => layout.nan.toList
  | .infinity negative => signed negative layout.infinity.toList
  | .finite negative units _ =>
    if units = 0 then
      signed (negative && layout.signedZero) (if layout.pointZero then ['0', '.', '0'] else ['0'])
    else signed negative (layout.magnitude (.shortest layout.tie units))

def text (layout : Layout) (n : Binary64) : String :=
  String.ofList (layout.chars n)

end Layout

end Formula
