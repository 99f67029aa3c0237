/-!
# Double precision numbers

A finite number is a sign and a whole number of units of `2 ^ (-1074)`, of which at most 53 bits
are significant. Every result is the nearest such number, `Binary64.round`; a tie goes to the one
whose last bit is zero.
-/

namespace Formula

/-- Powers are those of natural numbers, also where those of any monoid are known. -/
local instance (priority := high) powNat : Pow Nat Nat := instPowNat

/-- The whole number nearest to `num / den`; of two equally near ones the even one. -/
def roundDiv (num den : Nat) : Nat :=
  let low := num / den
  let twice := 2 * (num % den)
  if twice < den ∨ (twice = den ∧ low % 2 = 0) then low else low + 1

theorem roundDiv_le (num den : Nat) : roundDiv num den ≤ num / den + 1 := by
  unfold roundDiv
  dsimp only
  split <;> omega

theorem le_roundDiv (num den : Nat) : num / den ≤ roundDiv num den := by
  unfold roundDiv
  dsimp only
  split <;> omega

/-- How many low bits must be zero so that 53 significant ones remain. -/
def spareBits (units : Nat) : Nat :=
  units.log2 - 52

/-- A magnitude of 53 significant bits below `2 ^ 2098` units, that is, below `2 ^ 1024`. -/
def Representable (units : Nat) : Prop :=
  2 ^ spareBits units ∣ units ∧ units.log2 < 2098

instance (units : Nat) : Decidable (Representable units) := by
  unfold Representable
  infer_instance

/-- The nearest magnitude of 53 significant bits, whatever its size. -/
def roundUnits (num den : Nat) : Nat :=
  let gap := 2 ^ spareBits (num / den)
  roundDiv num (den * gap) * gap

theorem spareBits_dvd_mul {significand spare : Nat} (small : significand ≤ 2 ^ (53 : Nat)) :
    2 ^ spareBits (significand * 2 ^ spare) ∣ significand * 2 ^ spare := by
  by_cases full : significand = 2 ^ (53 : Nat)
  · rw [full, ← Nat.pow_add]
    refine Nat.pow_dvd_pow 2 ?_
    rw [spareBits, Nat.log2_two_pow]
    omega
  by_cases zero : significand = 0
  · simp [zero]
  refine Nat.dvd_trans (Nat.pow_dvd_pow 2 ?_) (Nat.dvd_mul_left _ _)
  have below : significand * 2 ^ spare < 2 ^ (53 + spare) := by
    rw [Nat.pow_add]
    exact Nat.mul_lt_mul_of_pos_right (by omega) (Nat.two_pow_pos spare)
  have positive : significand * 2 ^ spare ≠ 0 := by
    have := Nat.two_pow_pos spare
    exact Nat.mul_ne_zero zero (by omega)
  have := (Nat.log2_lt positive).2 below
  unfold spareBits
  omega

theorem div_spareBits_lt (units : Nat) : units / 2 ^ spareBits units < 2 ^ (53 : Nat) := by
  rw [Nat.div_lt_iff_lt_mul (Nat.two_pow_pos _), ← Nat.pow_add]
  refine Nat.lt_of_lt_of_le Nat.lt_log2_self (Nat.pow_le_pow_right (by omega) ?_)
  unfold spareBits
  omega

/-- Rounding leaves at most 53 significant bits. -/
theorem spareBits_dvd_roundUnits (num den : Nat) :
    2 ^ spareBits (roundUnits num den) ∣ roundUnits num den := by
  refine spareBits_dvd_mul ?_
  have upper := roundDiv_le num (den * 2 ^ spareBits (num / den))
  rw [← Nat.div_div_eq_div_mul] at upper
  have := div_spareBits_lt (num / den)
  omega

/-- A double precision number. Zeros are signed; there is one NaN. -/
inductive Binary64 where
  | nan
  | infinity (negative : Bool)
  | finite (negative : Bool) (units : Nat) (representable : Representable units)
deriving DecidableEq

namespace Binary64

/-- The number of smallest units in one. -/
def unitsPerOne : Nat :=
  2 ^ (1074 : Nat)

/-- The number nearest to `num / den` units, an infinity when that is too large. -/
def round (negative : Bool) (num den : Nat) : Binary64 :=
  if inRange : (roundUnits num den).log2 < 2098 then
    .finite negative (roundUnits num den) ⟨spareBits_dvd_roundUnits num den, inRange⟩
  else
    .infinity negative

def zero (negative : Bool) : Binary64 :=
  .finite negative 0 (by decide)

instance : Inhabited Binary64 :=
  ⟨zero false⟩

def ofNat (n : Nat) : Binary64 :=
  round false (n * unitsPerOne) 1

def isNaN : Binary64 → Bool
  | .nan => true
  | _ => false

theorem isNaN_eq_false {n : Binary64} (number : n ≠ .nan) : n.isNaN = false := by
  cases n with
  | nan => exact absurd rfl number
  | infinity | finite => rfl

def isFinite : Binary64 → Bool
  | .finite .. => true
  | _ => false

def isNegative : Binary64 → Bool
  | .nan => false
  | .infinity negative => negative
  | .finite negative _ _ => negative

/-- True of both zeros. -/
def isZero : Binary64 → Bool
  | .finite _ units _ => units == 0
  | _ => false

/-- The integer that the number is, if it is one. -/
def toInt? : Binary64 → Option Int
  | .finite negative units _ =>
    if units % unitsPerOne = 0 then
      let magnitude : Int := (units / unitsPerOne : Nat)
      some (if negative then -magnitude else magnitude)
    else none
  | _ => none

/-- A magnitude with its sign. -/
def signed (negative : Bool) (units : Nat) : Int :=
  if negative then -(units : Int) else units

/-- Where the number lies on the line, in units; NaN lies nowhere and both zeros lie at 0. -/
def place? : Binary64 → Option Int
  | .nan => none
  | .infinity negative => some (signed negative (2 ^ (2098 : Nat)))
  | .finite negative units _ => some (signed negative units)

/-- The order on the line; NaN is unordered. -/
def compare? (a b : Binary64) : Option Ordering :=
  match a.place?, b.place? with
  | some x, some y => some (compare x y)
  | _, _ => none

/-- Numeric equality: zeros are equal and NaN equals nothing. -/
def equal (a b : Binary64) : Bool :=
  a.compare? b == some .eq

end Binary64

end Formula
