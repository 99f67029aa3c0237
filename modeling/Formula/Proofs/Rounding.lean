import Mathlib
import Formula.Binary64.Basic

/-!
# Rounding

Rounding depends on the exact value only, not on the quotient that it is given as, and leaves what is
representable as it is.
-/

namespace Formula

theorem roundDiv_mul {k : Nat} (positive : 0 < k) (num den : Nat) :
    roundDiv (k * num) (k * den) = roundDiv num den := by
  have twice : ∀ r, 2 * (k * r) = k * (2 * r) := fun r => Nat.mul_left_comm 2 k r
  simp only [roundDiv, Nat.mul_div_mul_left _ _ positive, Nat.mul_mod_mul_left, twice,
    Nat.mul_lt_mul_left positive, Nat.mul_right_inj positive.ne']

theorem roundDiv_of_mul {den : Nat} (positive : 0 < den) (n : Nat) : roundDiv (n * den) den = n := by
  simp only [roundDiv, Nat.mul_div_cancel _ positive, Nat.mul_mod_left, Nat.mul_zero, positive, true_or,
    if_true]

theorem roundDiv_add {low rest den : Nat} (small : rest < den) :
    roundDiv (low * den + rest) den = if 2 * rest < den ∨ 2 * rest = den ∧ low % 2 = 0 then low else low + 1 := by
  have quotient : (low * den + rest) / den = low := by
    rw [Nat.mul_comm, Nat.mul_add_div (by omega), Nat.div_eq_of_lt small, Nat.add_zero]
  have remainder : (low * den + rest) % den = rest := by
    rw [Nat.mul_comm, Nat.mul_add_mod, Nat.mod_eq_of_lt small]
  rw [roundDiv, quotient, remainder]

theorem roundUnits_mul {k : Nat} (positive : 0 < k) (num den : Nat) :
    roundUnits (k * num) (k * den) = roundUnits num den := by
  simp only [roundUnits, Nat.mul_div_mul_left _ _ positive, Nat.mul_assoc, roundDiv_mul positive]

/-- The same value as another quotient. -/
theorem roundUnits_congr {num den num' den' : Nat} (positive : 0 < den) (positive' : 0 < den')
    (same : num * den' = num' * den) : roundUnits num den = roundUnits num' den' := by
  rw [← roundUnits_mul positive', ← roundUnits_mul positive num' den', Nat.mul_comm den' num, same,
    Nat.mul_comm num' den, Nat.mul_comm den' den]

theorem roundUnits_of_dvd {units : Nat} (divides : 2 ^ spareBits units ∣ units) {den : Nat}
    (positive : 0 < den) : roundUnits (units * den) den = units := by
  obtain ⟨significand, whole⟩ := divides
  have gap : 0 < den * 2 ^ spareBits units := Nat.mul_pos positive (Nat.two_pow_pos _)
  have exact : units * den = significand * (den * 2 ^ spareBits units) := by
    conv_lhs => rw [whole]
    rw [Nat.mul_comm (2 ^ _), Nat.mul_assoc, Nat.mul_comm (2 ^ _)]
  unfold roundUnits
  dsimp only
  rw [Nat.mul_div_cancel _ positive, exact, roundDiv_of_mul gap, Nat.mul_comm]
  exact whole.symm

/-- Less than half a unit is rounded away. -/
theorem roundUnits_of_small {num den : Nat} (small : 2 * num < den) : roundUnits num den = 0 := by
  have none : num / den = 0 := Nat.div_eq_of_lt (by omega)
  have gap : 2 ^ spareBits 0 = 1 := rfl
  have rest : num % den = num := Nat.mod_eq_of_lt (by omega)
  simp only [roundUnits, none, gap, Nat.mul_one, roundDiv, rest, small, true_or, if_true]

theorem two_pow_spareBits_dvd {units : Nat} : 2 ^ spareBits units ∣ 2 ^ units.log2 :=
  Nat.pow_dvd_pow 2 (Nat.sub_le _ _)

/-- Rounding does not go below a power of two. -/
theorem two_pow_log2_le_roundUnits {num den : Nat} (some : num / den ≠ 0) :
    2 ^ (num / den).log2 ≤ roundUnits num den := by
  have low := le_roundDiv num (den * 2 ^ spareBits (num / den))
  rw [← Nat.div_div_eq_div_mul] at low
  have gap : 0 < 2 ^ spareBits (num / den) := Nat.two_pow_pos _
  calc 2 ^ (num / den).log2
    _ = 2 ^ (num / den).log2 / 2 ^ spareBits (num / den) * 2 ^ spareBits (num / den) :=
      (Nat.div_mul_cancel two_pow_spareBits_dvd).symm
    _ ≤ num / den / 2 ^ spareBits (num / den) * 2 ^ spareBits (num / den) :=
      Nat.mul_le_mul_right _ (Nat.div_le_div_right (Nat.log2_self_le some))
    _ ≤ roundUnits num den := Nat.mul_le_mul_right _ low

namespace Binary64

theorem round_ne_nan (negative : Bool) (num den : Nat) : round negative num den ≠ .nan := by
  unfold round
  split <;> simp

theorem round_congr {num den num' den' : Nat} (positive : 0 < den) (positive' : 0 < den')
    (same : num * den' = num' * den) (negative : Bool) :
    round negative num den = round negative num' den' := by
  unfold round
  simp only [roundUnits_congr positive positive' same]

theorem round_of_representable {units : Nat} (representable : Representable units) {den : Nat}
    (positive : 0 < den) (negative : Bool) :
    round negative (units * den) den = .finite negative units representable := by
  have exact := roundUnits_of_dvd representable.1 positive
  unfold round
  simp only [exact, representable.2, dif_pos]

theorem round_of_small {num den : Nat} (small : 2 * num < den) (negative : Bool) :
    round negative num den = zero negative := by
  have none := roundUnits_of_small small
  have inRange : Nat.log2 0 < 2098 := by decide
  unfold round
  simp only [none, inRange, dif_pos]
  rfl

theorem round_of_large {num den : Nat} (large : 2 ^ 2098 ≤ num / den) (negative : Bool) :
    round negative num den = .infinity negative := by
  have some : num / den ≠ 0 := Nat.ne_of_gt (Nat.lt_of_lt_of_le (Nat.two_pow_pos _) large)
  have bits : 2098 ≤ (num / den).log2 := (Nat.le_log2 some).mpr large
  have rounded := Nat.le_trans (Nat.pow_le_pow_right (by omega) bits) (two_pow_log2_le_roundUnits some)
  have positive : roundUnits num den ≠ 0 :=
    Nat.ne_of_gt (Nat.lt_of_lt_of_le (Nat.two_pow_pos _) rounded)
  have outOfRange : ¬(roundUnits num den).log2 < 2098 := Nat.not_lt.mpr ((Nat.le_log2 positive).mpr rounded)
  unfold round
  rw [dif_neg outOfRange]

/-- How a finite result of rounding came about. -/
theorem of_round_eq_finite {negative sign : Bool} {num den units : Nat}
    {representable : Representable units}
    (rounded : round negative num den = .finite sign units representable) :
    roundUnits num den = units := by
  unfold round at rounded
  split at rounded
  · exact (Binary64.finite.inj rounded).2
  · cases rounded

end Binary64

end Formula
