import Mathlib.Data.Nat.Digits.Defs
import Formula.Numeral
import Formula.Proofs.Nearest
import Formula.Proofs.Wholes

/-!
# Whole numbers in other radixes

The digits of a hexadecimal, octal or binary number are appended one at a time, and the number is rounded after each.
As soon as it has reached `2 ^ 53` no further digit is large enough to change it, so that the digits from there on
count as zeros.
-/

namespace Formula

variable {num bits extra units digit n : Nat}

/-! ## Rounding of shifted magnitudes -/

theorem roundUnits_mul_two_pow (large : 2 ^ 52 ≤ num) (bits : Nat) :
    roundUnits (num * 2 ^ bits) 1 = roundUnits num 1 * 2 ^ bits := by
  unfold roundUnits
  dsimp only
  rw [Nat.div_one, Nat.div_one, spareBits_mul_two_pow large, Nat.one_mul, Nat.one_mul, Nat.pow_add, Nat.mul_comm num,
    Nat.mul_comm (2 ^ spareBits num), roundDiv_mul (Nat.two_pow_pos bits), Nat.mul_comm (2 ^ bits), Nat.mul_assoc]

/-- A magnitude does not get longer when its spare bits are filled. -/
theorem spareBits_add_of_lt (significant : Significant units) (small : extra < 2 ^ spareBits units) :
    spareBits (units + extra) = spareBits units := by
  by_cases none : units = 0
  · rw [none] at small ⊢
    rw [Nat.lt_one_iff.mp small]
  · obtain ⟨count, whole⟩ := significant_iff_dvd.mp significant
    rw [Nat.mul_comm] at whole
    have some : count ≠ 0 := by
      rintro rfl
      exact none (by rw [whole, Nat.zero_mul])
    have filled := log2_append some small
    have alone := log2_append some (Nat.two_pow_pos (spareBits units))
    rw [Nat.add_zero] at alone
    rw [← whole] at filled alone
    rw [spareBits, filled, ← alone, ← spareBits]

/-- Less than half of the last bit is rounded away. -/
theorem roundUnits_add_of_lt (significant : Significant units) (small : 2 * extra < 2 ^ spareBits units) :
    roundUnits (units + extra) 1 = units := by
  have same := spareBits_add_of_lt significant (by omega : extra < 2 ^ spareBits units)
  obtain ⟨count, whole⟩ := significant_iff_dvd.mp significant
  unfold roundUnits
  dsimp only
  rw [Nat.div_one, Nat.one_mul, same]
  generalize 2 ^ spareBits units = gap at small whole ⊢
  rw [whole, Nat.mul_comm gap, roundDiv_add (by omega), if_pos (Or.inl small)]

theorem two_pow_le_roundUnits (large : 2 ^ bits ≤ num) : 2 ^ bits ≤ roundUnits num 1 := by
  have some : num ≠ 0 := Nat.ne_of_gt (lt_of_lt_of_le (Nat.two_pow_pos bits) large)
  have whole : num / 1 ≠ 0 := by rwa [Nat.div_one]
  have top := two_pow_log2_le_roundUnits whole
  rw [Nat.div_one] at top
  exact le_trans (Nat.pow_le_pow_right (by decide) ((Nat.le_log2 some).mpr large)) top

theorem significant_mul_two_pow (significant : Significant units) (bits : Nat) : Significant (units * 2 ^ bits) := by
  obtain ⟨significand, places, small, rfl⟩ := significant
  exact ⟨significand, places + bits, small, by rw [Nat.pow_add, Nat.mul_assoc]⟩

theorem Significant.representable (significant : Significant units) (inRange : units.log2 < 2098) :
    Representable units :=
  ⟨significant_iff_dvd.mp significant, inRange⟩

namespace Binary64

theorem round_of_significant (significant : Significant units) (negative : Bool) :
    round negative units 1 =
      if inRange : units.log2 < 2098 then .finite negative units (significant.representable inRange)
      else .infinity negative := by
  have exact := roundUnits_of_dvd (significant_iff_dvd.mp significant) Nat.one_pos
  rw [Nat.mul_one] at exact
  unfold round
  simp only [exact]

theorem round_roundUnits (negative : Bool) (num den : Nat) :
    round negative (roundUnits num den) 1 = round negative num den :=
  round_of_significant (significant_roundUnits num den) negative

theorem large_of_outOfRange (outOfRange : ¬units.log2 < 2098) : 2 ^ 2098 ≤ units := by
  have some : units ≠ 0 := by
    rintro rfl
    exact outOfRange (by decide)
  exact (Nat.le_log2 some).mp (Nat.not_lt.mp outOfRange)

theorem round_natCast (total : Nat) :
    (if (total : Int) = 0 then zero false else round (decide ((total : Int) < 0)) (total : Int).natAbs 1) =
      round false total 1 := by
  split
  · next none =>
    rw [Int.natCast_eq_zero.mp none, round_of_small (by omega)]
  · rw [decide_eq_false (Int.not_lt.mpr (Int.natCast_nonneg total)), Int.natAbs_natCast]

/-- What is added to a number that is out of range does not bring it back. -/
theorem round_add_ofNat (significant : Significant units) (small : n ≤ 2 ^ 53) :
    (round false units 1).add (ofNat n) = round false (units + n * unitsPerOne) 1 := by
  rw [round_of_significant significant, ofNat_eq small]
  split
  · exact round_natCast (units + n * unitsPerOne)
  · next outOfRange =>
    have large := le_trans (large_of_outOfRange outOfRange) (Nat.le_add_right units (n * unitsPerOne))
    rw [round_of_large (by rwa [Nat.div_one])]
    rfl

theorem mul_finite {units units' : Nat} (representable : Representable units) (representable' : Representable units') :
    (finite false units representable).mul (finite false units' representable') =
      round false (units * units') unitsPerOne :=
  rfl

theorem infinity_mul (some : units ≠ 0) (representable : Representable units) :
    (infinity false).mul (finite false units representable) = infinity false :=
  if_neg some

/-- A power of two moves the bits. -/
theorem round_mul_two_pow (significant : Significant units) (few : bits ≤ 53) :
    (round false units 1).mul (ofNat (2 ^ bits)) = round false (units * 2 ^ bits) 1 := by
  have positive := Nat.two_pow_pos bits
  rw [round_of_significant significant, ofNat_eq (Nat.pow_le_pow_right (by decide) few)]
  split
  · have one : unitsPerOne ≠ 0 := (Nat.two_pow_pos 1074).ne'
    rw [mul_finite]
    refine round_congr (Nat.pos_of_ne_zero one) Nat.one_pos ?_ false
    rw [Nat.mul_one, Nat.mul_assoc]
  · next outOfRange =>
    have large := le_trans (large_of_outOfRange outOfRange) (Nat.le_mul_of_pos_right units positive)
    rw [round_of_large (by rwa [Nat.div_one]), infinity_mul (mul_unitsPerOne_ne_zero positive.ne')]

theorem ofNat_eq_round (large : 2 ^ 53 ≤ n) : ofNat n = round false (roundUnits n 1 * unitsPerOne) 1 := by
  rw [ofNat, ← round_roundUnits, unitsPerOne, roundUnits_mul_two_pow (by omega)]

theorem ofNat_of_large (large : 2 ^ 1024 ≤ n) : ofNat n = infinity false := by
  have units := Nat.mul_le_mul_right unitsPerOne large
  rw [two_pow_mul_unitsPerOne] at units
  exact round_of_large (by rwa [Nat.div_one]) false

theorem log2_lt_of_lt (small : n < 2 ^ 1024) : (n * unitsPerOne).log2 < 2098 := by
  by_cases zero : n = 0
  · rw [zero, Nat.zero_mul]
    decide
  · rw [Nat.log2_lt (mul_unitsPerOne_ne_zero zero), ← two_pow_mul_unitsPerOne 1024]
    exact Nat.mul_lt_mul_of_pos_right small (Nat.two_pow_pos 1074)

end Binary64

/-! ## Digits -/

namespace Numeral

/-- One more digit after those of `n`, if they make up less than `2 ^ 53`. Otherwise a zero is put in its place. -/
def keepDigit (radix n digit : Nat) : Nat :=
  if n < 2 ^ 53 then n * radix + digit else n * radix

theorem keepDigit_of_lt {radix : Nat} (below : n < 2 ^ 53) : keepDigit radix n digit = n * radix + digit :=
  if_pos below

theorem keepDigit_of_le {radix : Nat} (full : 2 ^ 53 ≤ n) : keepDigit radix n digit = n * radix :=
  if_neg (Nat.not_lt.mpr full)

theorem appendDigit_round (significant : Significant units) (few : bits ≤ 53) (small : digit ≤ 2 ^ 53) :
    appendDigit (2 ^ bits) (.round false units 1) digit =
      .round false (units * 2 ^ bits + digit * Binary64.unitsPerOne) 1 := by
  rw [appendDigit, Binary64.round_mul_two_pow significant few,
    Binary64.round_add_ofNat (significant_mul_two_pow significant bits) small]

/-- The bits of a number beyond `2 ^ 53` fill the significand, and a digit is less than half of the last of them after
they have been moved. -/
theorem roundUnits_append (significant : Significant units) (full : 2 ^ 53 * Binary64.unitsPerOne ≤ units)
    (small : digit < 2 ^ bits) :
    roundUnits (units * 2 ^ bits + digit * Binary64.unitsPerOne) 1 = units * 2 ^ bits := by
  rw [Binary64.two_pow_mul_unitsPerOne] at full
  have spare := spareBits_mul_two_pow (le_trans (Nat.pow_le_pow_right (by decide) (by decide)) full) bits
  have enough : 1075 ≤ spareBits units := by
    have top := (Nat.le_log2 (Nat.ne_of_gt (lt_of_lt_of_le (Nat.two_pow_pos _) full))).mpr full
    rw [spareBits]
    omega
  refine roundUnits_add_of_lt (significant_mul_two_pow significant bits) ?_
  calc 2 * (digit * Binary64.unitsPerOne)
    _ < 2 * (2 ^ bits * Binary64.unitsPerOne) := by
      refine Nat.mul_lt_mul_of_pos_left (Nat.mul_lt_mul_of_pos_right small ?_) (by decide)
      exact Nat.two_pow_pos 1074
    _ = 2 ^ (bits + 1075) := by rw [Binary64.two_pow_mul_unitsPerOne, ← Nat.pow_succ']
    _ ≤ 2 ^ spareBits (units * 2 ^ bits) := Nat.pow_le_pow_right (by decide) (by omega)

theorem appendDigit_small (few : bits ≤ 53) (small : digit ≤ 2 ^ 53) (below : n < 2 ^ 53) :
    appendDigit (2 ^ bits) (.ofNat n) digit = .ofNat (n * 2 ^ bits + digit) := by
  have significant : Significant (n * Binary64.unitsPerOne) :=
    significant_iff_dvd.mpr (representable_whole below.le).1
  rw [Binary64.ofNat, appendDigit_round significant few small, Binary64.ofNat, Nat.add_mul, Nat.mul_right_comm]

theorem appendDigit_full (few : bits ≤ 53) (small : digit < 2 ^ bits) (full : 2 ^ 53 ≤ n) :
    appendDigit (2 ^ bits) (.ofNat n) digit = .ofNat (n * 2 ^ bits) := by
  have least : digit ≤ 2 ^ 53 := le_trans small.le (Nat.pow_le_pow_right (by decide) few)
  have large : 2 ^ 53 * Binary64.unitsPerOne ≤ n * Binary64.unitsPerOne :=
    Nat.mul_le_mul_right _ full
  have significant : Significant (roundUnits (n * Binary64.unitsPerOne) 1) := significant_roundUnits _ _
  rw [Binary64.two_pow_mul_unitsPerOne] at large
  have filled := two_pow_le_roundUnits large
  rw [← Binary64.two_pow_mul_unitsPerOne] at filled
  rw [Binary64.ofNat, ← Binary64.round_roundUnits, appendDigit_round significant few least, ← Binary64.round_roundUnits,
    roundUnits_append significant filled small, ← roundUnits_mul_two_pow, Binary64.round_roundUnits,
    Nat.mul_right_comm, Binary64.ofNat]
  exact le_trans (Nat.pow_le_pow_right (by decide) (by decide)) large

/-- What is computed for one more digit is the nearest number to what is kept. -/
theorem appendDigit_ofNat (few : bits ≤ 53) (small : digit < 2 ^ bits) (n : Nat) :
    appendDigit (2 ^ bits) (.ofNat n) digit = .ofNat (keepDigit (2 ^ bits) n digit) := by
  rcases Nat.lt_or_ge n (2 ^ 53) with below | full
  · have least : digit ≤ 2 ^ 53 := le_trans small.le (Nat.pow_le_pow_right (by decide) few)
    rw [keepDigit_of_lt below]
    exact appendDigit_small few least below
  · rw [keepDigit_of_le full]
    exact appendDigit_full few small full

theorem foldl_appendDigit {values : List Nat} (few : bits ≤ 53) (are : ∀ digit ∈ values, digit < 2 ^ bits) (n : Nat) :
    values.foldl (appendDigit (2 ^ bits)) (.ofNat n) = .ofNat (values.foldl (keepDigit (2 ^ bits)) n) := by
  induction values generalizing n with
  | nil => rw [List.foldl_nil, List.foldl_nil]
  | cons digit rest ih =>
    obtain ⟨small, others⟩ := List.forall_mem_cons.mp are
    rw [List.foldl_cons, List.foldl_cons, appendDigit_ofNat few small, ih others]

/-! ## What is left of the digits -/

/-- A whole number of which all bits are kept, or at least the first 54. -/
inductive Kept : Nat → Nat → Prop
  | all (n : Nat) : Kept n n
  | front {lead places rest : Nat} (large : 2 ^ 53 ≤ lead) (small : rest < 2 ^ places) :
      Kept (lead * 2 ^ places) (lead * 2 ^ places + rest)

theorem Kept.append {kept n : Nat} (part : Kept kept n) (small : digit < 2 ^ bits) :
    Kept (keepDigit (2 ^ bits) kept digit) (n * 2 ^ bits + digit) := by
  cases part with
  | all =>
    rcases Nat.lt_or_ge kept (2 ^ 53) with below | full
    · rw [keepDigit_of_lt below]
      exact .all _
    · rw [keepDigit_of_le full]
      exact .front full small
  | @front lead places rest large below =>
    have full : 2 ^ 53 ≤ lead * 2 ^ places := le_trans large (Nat.le_mul_of_pos_right lead (Nat.two_pow_pos places))
    have behind : rest * 2 ^ bits + digit < 2 ^ (places + bits) := by
      rw [Nat.pow_add]
      calc rest * 2 ^ bits + digit
        _ < (rest + 1) * 2 ^ bits := by
          rw [Nat.add_one_mul]
          omega
        _ ≤ 2 ^ places * 2 ^ bits := Nat.mul_le_mul_right _ below
    rw [keepDigit_of_le full, Nat.add_mul, Nat.add_assoc, Nat.mul_assoc, ← Nat.pow_add]
    exact .front large behind

theorem Kept.foldl {values : List Nat} {kept n : Nat} (part : Kept kept n) (are : ∀ digit ∈ values, digit < 2 ^ bits) :
    Kept (values.foldl (keepDigit (2 ^ bits)) kept) (values.foldl (fun n digit => n * 2 ^ bits + digit) n) := by
  induction values generalizing kept n with
  | nil => exact part
  | cons digit rest ih =>
    obtain ⟨small, others⟩ := List.forall_mem_cons.mp are
    rw [List.foldl_cons, List.foldl_cons]
    exact ih (part.append small) others

end Numeral

/-- Whether a whole number lies half-way between two numbers of 53 bits and is rounded down, to the one whose last bit
is zero. -/
def TiesDown (n : Nat) : Prop :=
  2 * (n % 2 ^ spareBits n) = 2 ^ spareBits n ∧ n / 2 ^ spareBits n % 2 = 0

instance (n : Nat) : Decidable (TiesDown n) := by
  unfold TiesDown
  infer_instance

/-- Bits that are put behind others make a difference only if those are half of what is rounded to. -/
theorem roundDiv_append {low half middle part rest : Nat} (within : middle < 2 * half) (small : rest < part) :
    roundDiv (low * (2 * half * part) + (middle * part + rest)) (2 * half * part) =
      if middle = half ∧ low % 2 = 0 ∧ 0 < rest then low + 1
      else roundDiv (low * (2 * half * part) + middle * part) (2 * half * part) := by
  have inside : (middle + 1) * part ≤ 2 * half * part := Nat.mul_le_mul_right _ within
  rw [Nat.add_one_mul] at inside
  rw [roundDiv_add (by omega), roundDiv_add (by omega)]
  rw [Nat.mul_assoc 2 half part] at inside ⊢
  rcases Nat.lt_trichotomy middle half with less | rfl | more
  · have below : (middle + 1) * part ≤ half * part := Nat.mul_le_mul_right _ less
    rw [Nat.add_one_mul] at below
    split_ifs <;> omega
  · split_ifs <;> omega
  · have above : (half + 1) * part ≤ middle * part := Nat.mul_le_mul_right _ more
    rw [Nat.add_one_mul] at above
    split_ifs <;> omega

namespace Numeral.Kept

variable {kept : Nat}

theorem le (part : Kept kept n) : kept ≤ n := by
  cases part with
  | all => exact le_rfl
  | front => exact Nat.le_add_right ..

/-- Where something is lost, what is kept reaches down to half of the last of the 53 bits at least. -/
theorem exists_parts (part : Kept kept n) (lost : kept < n) :
    ∃ low half middle width rest, middle < 2 * half ∧ rest < width ∧ 0 < rest ∧
      kept = low * (2 * half * width) + middle * width ∧ n = low * (2 * half * width) + (middle * width + rest) ∧
        2 ^ spareBits kept = 2 * half * width ∧ 2 ^ spareBits n = 2 * half * width := by
  cases part with
  | all => exact absurd lost (lt_irrefl _)
  | @front lead places rest large small =>
    obtain ⟨fewer, one⟩ : ∃ fewer, spareBits lead = fewer + 1 := by
      have top := (Nat.le_log2 (by omega)).mpr large
      exact ⟨lead.log2 - 53, by rw [spareBits]; omega⟩
    have enough : 2 ^ 52 ≤ lead := by omega
    have power : 2 ^ (fewer + 1 + places) = 2 * 2 ^ fewer * 2 ^ places := by rw [Nat.pow_add, Nat.pow_succ']
    have split : lead * 2 ^ places =
        lead / (2 * 2 ^ fewer) * (2 * 2 ^ fewer * 2 ^ places) + lead % (2 * 2 ^ fewer) * 2 ^ places := by
      rw [← Nat.mul_assoc, ← Nat.add_mul, Nat.div_add_mod']
    refine ⟨lead / (2 * 2 ^ fewer), 2 ^ fewer, lead % (2 * 2 ^ fewer), 2 ^ places, rest, ?_, small, by omega, split,
      by rw [← Nat.add_assoc, ← split], ?_, ?_⟩
    · exact Nat.mod_lt _ (Nat.mul_pos (by decide) (Nat.two_pow_pos fewer))
    · rw [spareBits_mul_two_pow enough, one, power]
    · rw [spareBits_append enough small, one, power]

/-- The numbers are rounded alike, unless the bits that are lost would decide between two that are equally near. -/
theorem roundUnits_eq (part : Kept kept n) (lost : kept < n) :
    (¬TiesDown kept → roundUnits n 1 = roundUnits kept 1) ∧
      (TiesDown kept → roundUnits kept 1 ≤ kept ∧ roundUnits kept 1 < roundUnits n 1) := by
  obtain ⟨low, half, middle, width, rest, within, small, some, rfl, rfl, spare, spare'⟩ := part.exists_parts lost
  have inside : (middle + 1) * width ≤ 2 * half * width := Nat.mul_le_mul_right _ within
  rw [Nat.add_one_mul] at inside
  have ties : TiesDown (low * (2 * half * width) + middle * width) ↔ middle = half ∧ low % 2 = 0 := by
    rw [TiesDown, spare, Nat.mul_comm low, Nat.mul_add_mod, Nat.mul_add_div (by omega), Nat.mod_eq_of_lt (by omega),
      Nat.div_eq_of_lt (by omega), Nat.add_zero, Nat.mul_assoc 2, Nat.mul_right_inj (by decide),
      Nat.mul_left_inj (by omega)]
  have rounded : ∀ n, roundUnits n 1 = roundDiv n (2 ^ spareBits n) * 2 ^ spareBits n := by
    intro n
    rw [roundUnits, Nat.div_one, Nat.one_mul]
  rw [rounded, rounded, spare, spare', roundDiv_append within small, ties]
  constructor
  · intro other
    rw [if_neg fun all => other ⟨all.1, all.2.1⟩]
  · rintro ⟨same, even⟩
    rw [if_pos ⟨same, even, some⟩, roundDiv_add (by omega), if_pos (Or.inr ⟨by rw [same, Nat.mul_assoc], even⟩)]
    exact ⟨Nat.le_add_right .., Nat.mul_lt_mul_of_pos_right (Nat.lt_succ_self low) (by omega)⟩

theorem large (part : Kept kept n) (lost : kept < n) : 2 ^ 53 ≤ kept ∧ kept.log2 = n.log2 := by
  cases part with
  | all => exact absurd lost (lt_irrefl _)
  | @front lead places rest large small =>
    have some : lead ≠ 0 := by omega
    have alone := log2_append some (Nat.two_pow_pos places)
    rw [Nat.add_zero] at alone
    rw [log2_append some small, alone]
    exact ⟨le_trans large (Nat.le_mul_of_pos_right lead (Nat.two_pow_pos places)), rfl⟩

/-- The nearest number to what is kept is the nearest one to the whole, unless what is kept lies half-way between two
numbers. -/
theorem ofNat_eq_iff (part : Kept kept n) :
    Binary64.ofNat kept = .ofNat n ↔ ¬(kept < n ∧ TiesDown kept ∧ n < 2 ^ 1024) := by
  rcases eq_or_lt_of_le part.le with rfl | lost
  · exact iff_of_true rfl fun all => lt_irrefl _ all.1
  obtain ⟨alike, apart⟩ := part.roundUnits_eq lost
  obtain ⟨large, bits⟩ := part.large lost
  have inUnits := Binary64.ofNat_eq_round large
  have inUnits' := Binary64.ofNat_eq_round (le_trans large lost.le)
  constructor
  · rintro same ⟨_, ties, below⟩
    obtain ⟨down, up⟩ := apart ties
    have significant : ∀ m, Significant (roundUnits m 1 * Binary64.unitsPerOne) :=
      fun m => significant_mul_two_pow (significant_roundUnits m 1) 1074
    have inRange := Binary64.log2_lt_of_lt (lt_of_le_of_lt (le_trans down lost.le) below)
    rw [inUnits, inUnits', Binary64.round_of_significant (significant kept), dif_pos inRange] at same
    have units := Binary64.of_round_eq_finite same.symm
    have exact := roundUnits_of_dvd (significant_iff_dvd.mp (significant n)) Nat.one_pos
    rw [Nat.mul_one, units] at exact
    exact up.ne (Nat.eq_of_mul_eq_mul_right (Nat.two_pow_pos 1074) exact)
  · intro other
    by_cases ties : TiesDown kept
    -- a tie is the only difference, and it makes none where both are out of range
    · have beyond : 2 ^ 1024 ≤ n := Nat.not_lt.mp fun below => other ⟨lost, ties, below⟩
      have top := (Nat.le_log2 (by omega)).mpr beyond
      rw [← bits, Nat.le_log2 (by omega)] at top
      rw [Binary64.ofNat_of_large top, Binary64.ofNat_of_large beyond]
    · rw [inUnits, inUnits', alike ties]

end Numeral.Kept

/-! ## Digits of a text -/

namespace Numeral

/-- The digits of a radix, letters in either case. -/
def digitsOf : Nat → List Char
  | 2 => "01".toList
  | 8 => "01234567".toList
  | 16 => "0123456789abcdefABCDEF".toList
  | _ => []

/-- The whole number that digits write. -/
def wholeOf (radix : Nat) (digits : List Char) : Nat :=
  Nat.ofDigits radix (digits.filterMap (digit? radix)).reverse

/-- The whole number with zeros for all digits behind the one with which it has reached `2 ^ 53`. -/
def keptOf (radix : Nat) (digits : List Char) : Nat :=
  (digits.filterMap (digit? radix)).foldl (keepDigit radix) 0

theorem digit?_lt {radix value : Nat} {c : Char} (found : digit? radix c = some value) : value < radix := by
  obtain ⟨below, same⟩ := Option.ite_none_right_eq_some.mp found
  rwa [← Option.some.inj same]

/-- A character with a value in some radix is an ASCII one. -/
theorem toNat_lt_of_digit? {radix value : Nat} {c : Char} (found : digit? radix c = some value) : c.toNat < 128 := by
  by_contra large
  have digit : c.isDigit = false :=
    Bool.eq_false_iff.mpr fun is => large (lt_of_le_of_lt (toNat_of_isDigit is).2 (by decide))
  have lower : c.isLower = false := by
    refine Bool.eq_false_iff.mpr fun is => large ?_
    simp only [Char.isLower, Bool.and_eq_true, decide_eq_true_eq, UInt32.le_iff_toNat_le] at is
    exact lt_of_le_of_lt is.2 (by decide)
  have upper : c.isUpper = false := by
    refine Bool.eq_false_iff.mpr fun is => large ?_
    simp only [Char.isUpper, decide_eq_true_eq, UInt32.le_iff_toNat_le] at is
    exact lt_of_le_of_lt is.2 (by decide)
  rw [digit?, digit, lower, upper] at found
  cases found.symm.trans (if_neg (Nat.lt_irrefl radix))

/-- The digits of a radix are the characters with a value in it. -/
theorem digit?_isSome_iff {radix : Nat} (known : radix ∈ [2, 8, 16]) (c : Char) :
    (digit? radix c).isSome ↔ c ∈ digitsOf radix := by
  constructor
  · intro found
    have ascii : ∀ radix ∈ [2, 8, 16], ∀ n ∈ List.range 128,
        (digit? radix (Char.ofNat n)).isSome → Char.ofNat n ∈ digitsOf radix := by decide +kernel
    obtain ⟨value, valued⟩ := Option.isSome_iff_exists.mp found
    have listed := ascii radix known c.toNat (List.mem_range.mpr (toNat_lt_of_digit? valued))
    rw [Char.ofNat_toNat] at listed
    exact listed found
  · have valued : [2, 8, 16].all fun radix => (digitsOf radix).all fun c => (digit? radix c).isSome := by
      decide +kernel
    exact List.all_eq_true.mp (List.all_eq_true.mp valued radix known) c

theorem all_isSome_iff {radix : Nat} (known : radix ∈ [2, 8, 16]) (digits : List Char) :
    (digits.all fun c => (digit? radix c).isSome) ↔ ∀ c ∈ digits, c ∈ digitsOf radix := by
  simp only [List.all_eq_true, digit?_isSome_iff known]

theorem mapM_digit? {radix : Nat} (known : radix ∈ [2, 8, 16]) {digits : List Char}
    (are : ∀ c ∈ digits, c ∈ digitsOf radix) :
    digits.mapM (digit? radix) = some (digits.filterMap (digit? radix)) := by
  induction digits with
  | nil => rfl
  | cons c rest ih =>
    obtain ⟨first, others⟩ := List.forall_mem_cons.mp are
    obtain ⟨value, valued⟩ := Option.isSome_iff_exists.mp ((digit?_isSome_iff known c).mpr first)
    rw [List.mapM_cons, List.filterMap_cons, valued, ih others]
    rfl

theorem lt_of_mem_filterMap {radix value : Nat} {digits : List Char}
    (mem : value ∈ digits.filterMap (digit? radix)) : value < radix := by
  obtain ⟨c, -, valued⟩ := List.mem_filterMap.mp mem
  exact digit?_lt valued

theorem wholeOf_eq_foldl (radix : Nat) (digits : List Char) :
    wholeOf radix digits = (digits.filterMap (digit? radix)).foldl (fun n digit => n * radix + digit) 0 := by
  rw [wholeOf, Nat.ofDigits_eq_foldr, List.foldr_reverse]
  congr 1
  funext n digit
  rw [Nat.add_comm, Nat.mul_comm]
  rfl

theorem exists_bits {radix : Nat} (known : radix ∈ [2, 8, 16]) : ∃ bits ≤ 53, radix = 2 ^ bits := by
  rcases List.mem_cons.mp known with rfl | known
  · exact ⟨1, by decide, rfl⟩
  rcases List.mem_cons.mp known with rfl | known
  · exact ⟨3, by decide, rfl⟩
  · exact ⟨4, by decide, List.mem_singleton.mp known⟩

theorem kept_digits {radix : Nat} (known : radix ∈ [2, 8, 16]) (digits : List Char) :
    Kept (keptOf radix digits) (wholeOf radix digits) := by
  obtain ⟨bits, -, rfl⟩ := exists_bits known
  rw [wholeOf_eq_foldl]
  exact Kept.foldl (.all 0) fun _ => lt_of_mem_filterMap

theorem ofRadix_eq {radix : Nat} {digits : List Char} (known : radix ∈ [2, 8, 16]) (some : digits ≠ [])
    (are : ∀ c ∈ digits, c ∈ digitsOf radix) : ofRadix radix digits = .ofNat (keptOf radix digits) := by
  have zero : Binary64.zero false = .ofNat 0 := by
    rw [Binary64.ofNat, Nat.zero_mul, Binary64.round_of_small (by decide)]
  obtain ⟨bits, few, rfl⟩ := exists_bits known
  rw [ofRadix, if_neg some, mapM_digit? known are, zero]
  exact foldl_appendDigit few (fun _ => lt_of_mem_filterMap) 0

/-- The digits of a whole number in another radix are read as the nearest number to those that are kept. This is also
nearest to the whole, unless those kept lie half-way between two numbers and the upper one is nearer to the whole. -/
theorem ofRadix_nearest {radix : Nat} {digits : List Char} (known : radix ∈ [2, 8, 16]) (some : digits ≠ [])
    (are : ∀ c ∈ digits, c ∈ digitsOf radix) :
    (ofRadix radix digits).IsNearestTo (keptOf radix digits) ∧
      ((ofRadix radix digits).IsNearestTo (wholeOf radix digits) ↔
        ¬(keptOf radix digits < wholeOf radix digits ∧ TiesDown (keptOf radix digits) ∧
          wholeOf radix digits < 2 ^ 1024)) := by
  rw [ofRadix_eq known some are, Binary64.isNearestTo_iff, Binary64.isNearestTo_iff]
  exact ⟨rfl, (kept_digits known digits).ofNat_eq_iff⟩

theorem ofRadix_nearest_sixteen :
    2 ∈ [2, 8, 16] ∧ 16 ∈ [2, 8, 16] ∧ "101".toList ≠ [] ∧ "1000000000000081".toList ≠ [] ∧
      (∀ c ∈ "101".toList, c ∈ digitsOf 2) ∧ (∀ c ∈ "1000000000000081".toList, c ∈ digitsOf 16) ∧
      (ofRadix 2 "101".toList).IsNearestTo 5 ∧
      (ofRadix 16 "1000000000000081".toList).IsNearestTo (2 ^ 60 + 2 ^ 7) ∧
      ¬(ofRadix 16 "1000000000000081".toList).IsNearestTo (2 ^ 60 + 2 ^ 7 + 1) := by
  have binary : ∀ c ∈ "101".toList, c ∈ digitsOf 2 :=
    (all_isSome_iff (by decide) _).mp (by decide +kernel)
  have hexadecimal : ∀ c ∈ "1000000000000081".toList, c ∈ digitsOf 16 :=
    (all_isSome_iff (by decide) _).mp (by decide +kernel)
  have five := (ofRadix_nearest (by decide) (by decide) binary).1
  have lost := ofRadix_nearest (by decide) (by decide) hexadecimal
  have kept : keptOf 2 "101".toList = 5 := by decide +kernel
  have kept' : keptOf 16 "1000000000000081".toList = 2 ^ 60 + 2 ^ 7 := by decide +kernel
  have whole : wholeOf 16 "1000000000000081".toList = 2 ^ 60 + 2 ^ 7 + 1 := by decide +kernel
  have ties : TiesDown (2 ^ 60 + 2 ^ 7) := by decide +kernel
  rw [kept] at five
  rw [kept', whole] at lost
  refine ⟨by decide, by decide, by decide, by decide, binary, hexadecimal, five, lost.1, fun nearest => ?_⟩
  exact lost.2.mp nearest ⟨Nat.lt_succ_self _, ties, by decide +kernel⟩

/-- The last digit is lost: `2 ^ 60 + 128` lies half-way between two numbers, one more is nearer to the upper one. -/
theorem ofRadix_not_nearest :
    ¬∀ digits : List Char, digits ≠ [] → (∀ c ∈ digits, c ∈ digitsOf 16) →
      (ofRadix 16 digits).IsNearestTo (wholeOf 16 digits) := by
  intro nearest
  have once := nearest "1000000000000081".toList (by decide) ((all_isSome_iff (by decide) _).mp (by decide +kernel))
  rw [Binary64.isNearestTo_iff] at once
  have whole : wholeOf 16 "1000000000000081".toList = 2 ^ 60 + 2 ^ 7 + 1 := by decide +kernel
  have other : ofRadix 16 "1000000000000081".toList ≠ .ofNat (2 ^ 60 + 2 ^ 7 + 1) := by decide +kernel
  rw [whole] at once
  exact other once

end Numeral

end Formula
