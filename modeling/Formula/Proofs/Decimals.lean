import Formula.Decimal.Basic
import Formula.Proofs.Rounding

/-!
# Decimals

The number that a decimal is read as depends on its value only, and the shortest decimal of a magnitude
is read as that magnitude.
-/

namespace Formula.Decimal

/-! ## The value of a decimal -/

/-- The value is `numerator / denominator` units. -/
def numerator (d : Decimal) : Nat :=
  d.digits * 10 ^ d.exponent.toNat * Binary64.unitsPerOne

def denominator (d : Decimal) : Nat :=
  10 ^ (-d.exponent).toNat

theorem denominator_pos (d : Decimal) : 0 < d.denominator :=
  Nat.pow_pos (by omega)

theorem round_of_tiny {d : Decimal} (tiny : d.exponent < -(d.digits.log2 + 400 : Int))
    (negative : Bool) : .round negative d.numerator d.denominator = Binary64.zero negative := by
  have whole : d.exponent.toNat = 0 := by omega
  obtain ⟨more, places⟩ : ∃ more, (-d.exponent).toNat = d.digits.log2 + 401 + more :=
    ⟨(-d.exponent).toNat - (d.digits.log2 + 401), by omega⟩
  have bound : d.digits < 2 * 10 ^ d.digits.log2 := by
    have bits : d.digits < 2 ^ (d.digits.log2 + 1) := Nat.lt_log2_self
    have larger : 2 ^ d.digits.log2 ≤ 10 ^ d.digits.log2 := Nat.pow_le_pow_left (by omega) _
    rw [Nat.pow_succ] at bits
    omega
  have powers : 4 * Binary64.unitsPerOne ≤ 10 ^ 401 := by decide +kernel
  have positive : 0 < Binary64.unitsPerOne := by decide +kernel
  have room : 0 < 10 ^ more := Nat.pow_pos (by omega)
  have top : d.numerator = d.digits * Binary64.unitsPerOne := by
    rw [numerator, whole, Nat.pow_zero, Nat.mul_one]
  have bottom : d.denominator = 10 ^ d.digits.log2 * 10 ^ 401 * 10 ^ more := by
    rw [denominator, places, Nat.pow_add, Nat.pow_add]
  refine Binary64.round_of_small ?_ negative
  rw [top, bottom]
  generalize Binary64.unitsPerOne = one at powers positive
  generalize 10 ^ 401 = large at powers
  generalize 10 ^ d.digits.log2 = scale at bound
  calc 2 * (d.digits * one)
    _ = d.digits * (2 * one) := Nat.mul_left_comm ..
    _ < 2 * scale * (2 * one) := Nat.mul_lt_mul_of_pos_right bound (by omega)
    _ = scale * (4 * one) := by rw [Nat.mul_comm 2, Nat.mul_assoc, ← Nat.mul_assoc 2 2]
    _ ≤ scale * large := Nat.mul_le_mul_left _ powers
    _ ≤ scale * large * 10 ^ more := Nat.le_mul_of_pos_right _ room

theorem round_of_huge {d : Decimal} (some : d.digits ≠ 0) (huge : 400 < d.exponent) (negative : Bool) :
    .round negative d.numerator d.denominator = Binary64.infinity negative := by
  have whole : (-d.exponent).toNat = 0 := by omega
  have places : 401 ≤ d.exponent.toNat := by omega
  have powers : 2 ^ 2098 ≤ 10 ^ 401 * Binary64.unitsPerOne := by decide +kernel
  refine Binary64.round_of_large (Nat.le_trans powers ?_) negative
  have scale : 10 ^ 401 ≤ 10 ^ d.exponent.toNat := Nat.pow_le_pow_right (by omega) places
  rw [denominator, whole, Nat.pow_zero, Nat.div_one, numerator]
  generalize Binary64.unitsPerOne = one
  generalize 10 ^ 401 = large at scale
  calc large * one
    _ ≤ 10 ^ d.exponent.toNat * one := Nat.mul_le_mul_right _ scale
    _ ≤ d.digits * (10 ^ d.exponent.toNat * one) :=
      Nat.le_mul_of_pos_left _ (Nat.pos_of_ne_zero some)
    _ = d.digits * 10 ^ d.exponent.toNat * one := (Nat.mul_assoc ..).symm

/-- The early answers for small and large decimals are those of the rounding. -/
theorem toBinary64_eq_round (d : Decimal) (negative : Bool) :
    d.toBinary64 negative = .round negative d.numerator d.denominator := by
  unfold toBinary64
  split
  · next small =>
    rcases small with none | tiny
    · have empty : d.numerator = 0 := by rw [numerator, none, Nat.zero_mul, Nat.zero_mul]
      rw [empty, Binary64.round_of_small (by rw [Nat.mul_zero]; exact d.denominator_pos)]
    · exact (round_of_tiny tiny negative).symm
  next large =>
  rw [not_or] at large
  split
  · next huge => exact (round_of_huge large.1 huge negative).symm
  obtain ⟨digits, exponent⟩ := d
  cases exponent with
  | ofNat scale =>
    have none : (-(Int.ofNat scale)).toNat = 0 := by
      have same : Int.ofNat scale = (scale : Int) := rfl
      omega
    rw [numerator, denominator, none]
    rfl
  | negSucc scale =>
    rw [numerator, Int.toNat_negSucc, Nat.pow_zero, Nat.mul_one]
    rfl

/-- Zeros at the end of the digits can be kept in the exponent. -/
theorem toBinary64_zeros (digits zeros : Nat) (exponent : Int) (negative : Bool) :
    toBinary64 negative ⟨digits * 10 ^ zeros, exponent⟩ =
      toBinary64 negative ⟨digits, exponent + zeros⟩ := by
  rw [toBinary64_eq_round, toBinary64_eq_round]
  refine Binary64.round_congr (denominator_pos _) (denominator_pos _) ?_ negative
  have places : zeros + exponent.toNat + (-(exponent + zeros)).toNat =
      (exponent + zeros).toNat + (-exponent).toNat := by omega
  unfold numerator denominator
  dsimp only
  generalize Binary64.unitsPerOne = one
  calc digits * 10 ^ zeros * 10 ^ exponent.toNat * one * 10 ^ (-(exponent + zeros)).toNat
    _ = digits * one * 10 ^ (zeros + exponent.toNat + (-(exponent + zeros)).toNat) := by
      rw [Nat.pow_add, Nat.pow_add]
      ac_rfl
    _ = digits * 10 ^ (exponent + zeros).toNat * one * 10 ^ (-exponent).toNat := by
      rw [places, Nat.pow_add]
      ac_rfl

/-! ## The decimal of a magnitude -/

variable {units : Nat}

theorem roundUnits_of_readsAs {d : Decimal} (reads : d.readsAs units) : roundUnits d.numerator d.denominator = units := by
  unfold readsAs at reads
  split at reads
  · next found =>
    rw [toBinary64_eq_round] at found
    rw [Binary64.of_round_eq_finite found]
    exact of_decide_eq_true reads
  · cases reads

theorem readsAs_iff (representable : Representable units) {d : Decimal} :
    d.readsAs units ↔ ∀ negative, d.toBinary64 negative = .finite negative units representable := by
  constructor
  · intro reads negative
    have rounded := roundUnits_of_readsAs reads
    rw [toBinary64_eq_round, Binary64.round]
    simp only [rounded, representable.2, dif_pos]
  · intro reads
    rw [readsAs, reads false]
    exact beq_self_eq_true units

theorem numerator_ofUnits (representable : Representable units) :
    (ofUnits units).numerator = units * (ofUnits units).denominator := by
  obtain ⟨bits, places, split, spare⟩ : ∃ bits places : Nat, bits + places = 1074 ∧
      bits ≤ spareBits units ∧ ofUnits units = ⟨units / 2 ^ bits * 5 ^ places, -places⟩ := by
    refine ⟨1074 - (1074 - spareBits units), 1074 - spareBits units, by omega, by omega, rfl⟩
  obtain ⟨significand, whole⟩ := Nat.dvd_trans (Nat.pow_dvd_pow 2 spare.1) representable.1
  have none : (-(places : Int)).toNat = 0 := by omega
  have count : (- -(places : Int)).toNat = places := by omega
  have one : Binary64.unitsPerOne = 2 ^ bits * 2 ^ places := by
    rw [← Nat.pow_add, split, Binary64.unitsPerOne]
  have ten : 10 ^ places = 2 ^ places * 5 ^ places := by rw [← Nat.mul_pow]
  have quotient : units / 2 ^ bits = significand := by
    rw [whole, Nat.mul_div_cancel_left _ (Nat.two_pow_pos _)]
  rw [spare.2, numerator, denominator]
  dsimp only
  rw [none, count, Nat.pow_zero, Nat.mul_one, one, ten, quotient]
  conv_rhs => rw [whole]
  generalize 2 ^ bits = gap
  generalize 2 ^ places = twos
  generalize 5 ^ places = fives
  ac_rfl

theorem readsAs_ofUnits (representable : Representable units) : (ofUnits units).readsAs units := by
  rw [readsAs_iff representable]
  intro negative
  rw [toBinary64_eq_round, ← Binary64.round_of_representable representable (ofUnits units).denominator_pos]
  refine Binary64.round_congr (denominator_pos _) (denominator_pos _) ?_ negative
  rw [numerator_ofUnits representable]

theorem readsAs_of_nearby? {tie : Tie} {exact d : Decimal} {dropped : Nat}
    (found : nearby? tie units exact dropped = some d) : d.readsAs units := by
  unfold nearby? at found
  dsimp only at found
  split at found
  · next lower upper =>
    have either : ∀ wins : Bool, readsAs units (if wins then
        ⟨exact.digits / 10 ^ dropped, exact.exponent + dropped⟩
      else ⟨exact.digits / 10 ^ dropped + 1, exact.exponent + dropped⟩) := by
      rintro (_ | _)
      · exact upper
      · exact lower
    cases found
    exact either _
  · next lower _ =>
    cases found
    exact lower
  · next _ upper =>
    cases found
    exact upper
  · cases found

theorem readsAs_shortestFrom (tie : Tie) {exact : Decimal} (reads : exact.readsAs units)
    (dropped : Nat) : (shortestFrom tie units exact dropped).readsAs units := by
  induction dropped with
  | zero => exact reads
  | succ dropped ih =>
    rw [shortestFrom]
    cases found : nearby? tie units exact (dropped + 1) with
    | none => exact ih
    | some d => exact readsAs_of_nearby? found

theorem readsAs_shortest (tie : Tie) (representable : Representable units) :
    (shortest tie units).readsAs units :=
  readsAs_shortestFrom tie (readsAs_ofUnits representable) _

theorem digits_shortest_ne_zero (tie : Tie) (representable : Representable units) (some : units ≠ 0) :
    (shortest tie units).digits ≠ 0 := by
  intro none
  have reads := (readsAs_iff representable).mp (readsAs_shortest tie representable) false
  rw [toBinary64, if_pos (Or.inl none)] at reads
  exact some (Binary64.finite.inj reads).2.symm

end Formula.Decimal
