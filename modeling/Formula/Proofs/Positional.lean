import Formula.Numeral
import Formula.Proofs.Decimals
import Formula.Proofs.Nearest

/-!
# Where positional writing ends

A layout goes by the exponent of the first of the shortest digits. That is the same as to compare the number with the
powers of ten, each rounded to the nearest number.
-/

namespace Formula

namespace Decimal

variable {d : Decimal} {units : Nat} {e : Int}

/-- The first digit stands at a lower place than `e` if and only if the value is less than `10 ^ e`. -/
theorem leading_lt_iff (some : d.digits ≠ 0) (e : Int) :
    d.leading < e ↔ d.numerator * denominator ⟨1, e⟩ < numerator ⟨1, e⟩ * d.denominator := by
  have positive : 0 < Binary64.unitsPerOne := Nat.two_pow_pos 1074
  unfold numerator denominator leading
  dsimp only
  generalize Binary64.unitsPerOne = one at positive
  have left : d.digits * 10 ^ d.exponent.toNat * one * 10 ^ (-e).toNat =
      d.digits * 10 ^ (d.exponent.toNat + (-e).toNat) * one := by
    rw [Nat.pow_add]
    ac_rfl
  have right : 1 * 10 ^ e.toNat * one * 10 ^ (-d.exponent).toNat =
      10 ^ (e.toNat + (-d.exponent).toNat) * one := by
    rw [Nat.pow_add]
    ac_rfl
  rw [left, right, Nat.mul_lt_mul_right positive]
  have digit : 0 < (Nat.toDigits 10 d.digits).length := Nat.length_toDigits_pos
  rcases Nat.lt_or_ge (d.exponent.toNat + (-e).toNat) (e.toNat + (-d.exponent).toNat) with less | more
  · obtain ⟨places, split⟩ := Nat.exists_eq_add_of_lt less
    have scale : 0 < 10 ^ (d.exponent.toNat + (-e).toNat) := Nat.pow_pos (by decide)
    have count : (Nat.toDigits 10 d.digits).length ≤ places + 1 ↔ d.digits < 10 ^ (places + 1) :=
      Nat.length_toDigits_le_iff (by decide) (Nat.succ_pos places)
    rw [split, Nat.add_assoc, Nat.pow_add 10 _ (places + 1), Nat.mul_comm d.digits, Nat.mul_lt_mul_left scale, ← count]
    omega
  · refine iff_of_false (by omega) (Nat.not_lt.mpr ?_)
    exact le_trans (Nat.pow_le_pow_right (by decide) more) (Nat.le_mul_of_pos_left _ (Nat.pos_of_ne_zero some))

/-- The shortest decimal of a number starts at a lower place than `e` if and only if the number lies below the one
that `10 ^ e` is rounded to, if the shortest decimal of that one is `10 ^ e`. -/
theorem leading_shortest_lt_iff {tie : Tie} (representable : Representable units) (some : units ≠ 0)
    (exact : (shortest tie (roundUnits (numerator ⟨1, e⟩) (denominator ⟨1, e⟩))).leading = e) :
    (shortest tie units).leading < e ↔ units < roundUnits (numerator ⟨1, e⟩) (denominator ⟨1, e⟩) := by
  have value := roundUnits_of_readsAs (readsAs_shortest tie representable)
  have digits := digits_shortest_ne_zero tie representable some
  have less := leading_lt_iff digits e
  constructor
  · intro lower
    have le := roundUnits_mono (denominator_pos _) (denominator_pos _) (less.mp lower).le
    rw [value] at le
    -- a value below the power of ten may be rounded to the same number, but is not its shortest decimal
    refine lt_of_le_of_ne le fun same => ?_
    rw [← same] at exact
    exact lower.ne exact
  · intro below
    by_contra other
    rw [less, Nat.not_lt] at other
    have le := roundUnits_mono (denominator_pos _) (denominator_pos _) other
    rw [value] at le
    exact Nat.not_lt.mpr le below

end Decimal

namespace Numeral

open Decimal

variable {units : Nat}

/-- Numbers are written positionally from `1e-6` on and below `1e21`, with an exponent otherwise. -/
theorem write_finite (negative : Bool) (representable : Representable units) (nonzero : units ≠ 0) :
    write (.finite negative units representable) =
      Layout.signed negative
        (if (read "1e-6".toList).compare? (.finite false units representable) ≠ some .gt ∧
            (Binary64.finite false units representable).compare? (read "1e21".toList) = some .lt then
          layout.positional (shortest layout.tie units).significant (shortest layout.tie units).leading
        else layout.exponential (shortest layout.tie units).significant (shortest layout.tie units).leading) := by
  have lowest : (read "1e-6".toList).place? =
      some (roundUnits (numerator ⟨1, -6⟩) (denominator ⟨1, -6⟩) : Int) := by decide +kernel
  have limit : (read "1e21".toList).place? =
      some (roundUnits (numerator ⟨1, 21⟩) (denominator ⟨1, 21⟩) : Int) := by decide +kernel
  have least : (shortest layout.tie units).leading < -6 ↔ _ :=
    leading_shortest_lt_iff representable nonzero (by decide +kernel)
  have greatest : (shortest layout.tie units).leading < 21 ↔ _ :=
    leading_shortest_lt_iff representable nonzero (by decide +kernel)
  have place : (Binary64.finite false units representable).place? = some (units : Int) := rfl
  have within : layout.least ≤ (shortest layout.tie units).leading ∧
        (shortest layout.tie units).leading ≤ layout.greatest ↔
      (read "1e-6".toList).compare? (.finite false units representable) ≠ some .gt ∧
        (Binary64.finite false units representable).compare? (read "1e21".toList) = some .lt := by
    rw [Binary64.compare?, Binary64.compare?, lowest, limit, place]
    dsimp only
    rw [Ne, Option.some.injEq, Option.some.injEq, compare_gt_iff_gt, compare_lt_iff_lt, Nat.cast_lt, Nat.cast_lt,
      ← least, ← greatest, layout]
    dsimp only
    omega
  rw [write, Layout.chars, if_neg nonzero, Layout.magnitude]
  simp only [within]

end Numeral

end Formula
