import Formula.Binary64.Basic

/-!
# Decimal numbers

A decimal is read as the double precision number nearest to it, and a finite number is written by
the shortest decimal that is read as that number.
-/

namespace Formula

/-- The number `digits * 10 ^ exponent`. -/
structure Decimal where
  digits : Nat
  exponent : Int
deriving DecidableEq

namespace Decimal

local instance (priority := high) powNat : Pow Nat Nat := instPowNat

/-- The nearest double precision number. Decimals below `10 ^ (-399)` and above `10 ^ 400` need no
arithmetic: they are zero and infinite. -/
def toBinary64 (negative : Bool) (d : Decimal) : Binary64 :=
  if d.digits = 0 ∨ d.exponent < -(d.digits.log2 + 400 : Int) then .zero negative
  else if 400 < d.exponent then .infinity negative
  else match d.exponent with
    | .ofNat scale => .round negative (d.digits * 10 ^ scale * Binary64.unitsPerOne) 1
    | .negSucc scale => .round negative (d.digits * Binary64.unitsPerOne) (10 ^ (scale + 1))

/-- Whether the decimal is read as a magnitude of `units`. -/
def readsAs (units : Nat) (d : Decimal) : Bool :=
  match d.toBinary64 false with
  | .finite _ found _ => found == units
  | _ => false

/-- Which of two equally near decimals is taken. -/
inductive Tie where
  | up
  | toEven
deriving DecidableEq

/-- A decimal next to `exact`, with `dropped` digits fewer, that is read as `units`; when both
neighbours are, the nearer. -/
def nearby? (tie : Tie) (units : Nat) (exact : Decimal) (dropped : Nat) : Option Decimal :=
  let grid := 10 ^ dropped
  let low := exact.digits / grid
  let lower : Decimal := ⟨low, exact.exponent + dropped⟩
  let upper : Decimal := ⟨low + 1, exact.exponent + dropped⟩
  let lowerWins :=
    match compare (2 * (exact.digits % grid)) grid, tie with
    | .lt, _ => true
    | .gt, _ => false
    | .eq, .up => false
    | .eq, .toEven => low % 2 == 0
  match lower.readsAs units, upper.readsAs units with
  | true, true => some (if lowerWins then lower else upper)
  | true, false => some lower
  | false, true => some upper
  | false, false => none

/-- The first decimal found when `dropped` digits and fewer are dropped. -/
def shortestFrom (tie : Tie) (units : Nat) (exact : Decimal) : Nat → Decimal
  | 0 => exact
  | dropped + 1 => (nearby? tie units exact (dropped + 1)).getD (shortestFrom tie units exact dropped)

/-- The exact value of a representable magnitude. Its last bit weighs `2 ^ (-places)`, which is
`5 ^ places * 10 ^ (-places)`. -/
def ofUnits (units : Nat) : Decimal :=
  let places := 1074 - spareBits units
  ⟨units / 2 ^ (1074 - places) * 5 ^ places, -places⟩

/-- The shortest decimal that is read as `units`: the exact value with as many digits dropped as
possible. -/
def shortest (tie : Tie) (units : Nat) : Decimal :=
  let exact := ofUnits units
  shortestFrom tie units exact ((Nat.toDigits 10 exact.digits).length - 1)

/-- The digits without trailing zeros. -/
def significant (d : Decimal) : List Char :=
  ((Nat.toDigits 10 d.digits).reverse.dropWhile (· == '0')).reverse

/-- The exponent of the first digit. -/
def leading (d : Decimal) : Int :=
  d.exponent + (Nat.toDigits 10 d.digits).length - 1

end Decimal

end Formula
