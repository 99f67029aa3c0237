import Formula.Numeral

/-!
# Numbers in JSON text

The digits that fit 64 bits make up a whole number, and that is multiplied or divided by a power of
ten. Both the number and the result are rounded, so that long numbers can miss the nearest one.
-/

namespace Formula.Json

/-- Appends digits to `significand` as long as it fits 64 bits; the second part is what is left. -/
def gather (significand : Nat) : List Char → Nat × List Char
  | [] => (significand, [])
  | c :: rest =>
    let next := 10 * significand + (c.toNat - '0'.toNat)
    if next < 2 ^ 64 then gather next rest else (significand, c :: rest)

def powerOfTen (exponent : Nat) : Binary64 :=
  Decimal.toBinary64 false ⟨1, exponent⟩

/-- `n * 10 ^ exponent`; none if that is too large. Powers of ten below `10 ^ (-308)` are taken in
two steps, and below `10 ^ (-616)` nothing is left of a number of 64 bits. -/
def scale? (n : Binary64) (exponent : Int) : Option Binary64 :=
  match exponent with
  | .ofNat up =>
    if up ≤ 308 then
      let scaled := n.mul (powerOfTen up)
      if scaled.isFinite then some scaled else none
    else if n.isZero then some n else none
  | .negSucc below =>
    let down := below + 1
    if down ≤ 308 then some (n.div (powerOfTen down))
    else if down ≤ 616 then some ((n.div (powerOfTen 308)).div (powerOfTen (down - 308)))
    else some (.zero false)

/-- Digits without a leading zero, or the digit zero. -/
def isWhole : List Char → Bool
  | [] => false
  | ['0'] => true
  | c :: _ => c != '0'

/-- What follows the whole part: the digits of the fraction, which are required after a point. -/
def fraction? : List Char → Option (List Char × List Char)
  | '.' :: rest =>
    let digits := rest.takeWhile Char.isDigit
    if digits = [] then none else some (digits, rest.dropWhile Char.isDigit)
  | text => some ([], text)

/-- The number that a whole text writes. -/
def readNumber? (text : List Char) : Option Binary64 := do
  let (negative, unsigned) : Bool × List Char :=
    match text with
    | '-' :: rest => (true, rest)
    | _ => (false, text)
  let whole := unsigned.takeWhile Char.isDigit
  if !isWhole whole then none
  let (fraction, rest) ← fraction? (unsigned.dropWhile Char.isDigit)
  let exponent ← Numeral.exponent? rest
  let (high, wholeLeft) := gather 0 whole
  let (significand, fractionLeft) := gather high fraction
  let shift : Int := wholeLeft.length + fractionLeft.length - fraction.length
  let magnitude ← scale? (.ofNat significand) (exponent + shift)
  return if negative then magnitude.neg else magnitude

end Formula.Json
