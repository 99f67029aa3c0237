import Mathlib.Data.List.Induction
import Formula.Proofs.Numerals

/-!
# Whole numbers

Whole numbers below `2 ^ 53` are written by their digits. A number that is written with a point is below
`2 ^ 53`, so the digits before its point write a whole number again.
-/

namespace Formula

open Nat (ofDigitChars toDigits)

/-! ## Digits of whole numbers -/

theorem toDigits_mul_pow {n : Nat} (some : n ≠ 0) (zeros : Nat) :
    toDigits 10 (n * 10 ^ zeros) = toDigits 10 n ++ List.replicate zeros '0' := by
  induction zeros with
  | zero => rw [Nat.pow_zero, Nat.mul_one, List.replicate_zero, List.append_nil]
  | succ zeros ih =>
    have positive : 0 < n * 10 ^ zeros := Nat.mul_pos (Nat.pos_of_ne_zero some) (Nat.pow_pos (by omega))
    have next := Nat.toDigits_append_toDigits (d := 0) (b := 10) (by omega) positive (by omega)
    have value : 10 * (n * 10 ^ zeros) + 0 = n * 10 ^ (zeros + 1) := by
      rw [Nat.pow_succ, Nat.add_zero, Nat.mul_comm 10, Nat.mul_assoc]
    rw [← value, ← next, ih, List.append_assoc, List.replicate_succ']
    rfl

/-- The first digits of a whole number are the digits of another one. -/
theorem eq_toDigits_of_append {n : Nat} {front back : List Char} (some : front ≠ [])
    (digits : toDigits 10 n = front ++ back) : front = toDigits 10 (ofDigitChars 10 front 0) := by
  induction back using List.reverseRecOn generalizing n with
  | nil =>
    rw [List.append_nil] at digits
    rw [← digits, Nat.ofDigitChars_ten_toDigits]
  | append_singleton back last ih =>
    have length := congrArg List.length digits
    rw [List.length_append, List.length_append, List.length_singleton] at length
    have nonempty := List.length_pos_iff.mpr some
    have large : 10 ≤ n := by
      by_contra small
      rw [Nat.toDigits_of_lt_base (by omega), List.length_singleton] at length
      omega
    -- Without its last digit the text is the digits of a tenth of the number.
    rw [Nat.toDigits_of_base_le (by omega) large, ← List.append_assoc] at digits
    exact ih (List.append_inj_left' digits rfl)

/-! ## The decimals of whole numbers -/

theorem Binary64.two_pow_mul_unitsPerOne (bits : Nat) : 2 ^ bits * unitsPerOne = 2 ^ (bits + 1074) :=
  (Nat.pow_add 2 bits 1074).symm

theorem Binary64.mul_unitsPerOne_ne_zero {n : Nat} (some : n ≠ 0) : n * unitsPerOne ≠ 0 :=
  Nat.mul_ne_zero some (Nat.ne_of_gt (Nat.two_pow_pos 1074))

theorem representable_whole {n : Nat} (small : n ≤ 2 ^ 53) : Representable (n * Binary64.unitsPerOne) := by
  refine ⟨spareBits_dvd_mul small, ?_⟩
  by_cases zero : n = 0
  · rw [zero, Nat.zero_mul]
    decide
  have bound : 2 ^ 53 * Binary64.unitsPerOne < 2 ^ 2098 := by decide +kernel
  have below := Nat.lt_of_le_of_lt (Nat.mul_le_mul_right Binary64.unitsPerOne small) bound
  exact (Nat.log2_lt (Binary64.mul_unitsPerOne_ne_zero zero)).mpr below

theorem Binary64.ofNat_eq {n : Nat} (small : n ≤ 2 ^ 53) :
    ofNat n = .finite false (n * unitsPerOne) (representable_whole small) := by
  have exact := round_of_representable (representable_whole small) Nat.one_pos false
  rw [Nat.mul_one (n * unitsPerOne)] at exact
  exact exact

namespace Decimal

variable {units n dropped start : Nat} {tie : Tie} {exact d : Decimal}

theorem exponent_of_nearby? (found : nearby? tie units exact dropped = some d) :
    d.exponent = exact.exponent + dropped := by
  unfold nearby? at found
  dsimp only at found
  split at found
  · next lower upper =>
    cases found
    split <;> split <;> rfl
  · cases found
    rfl
  · cases found
    rfl
  · cases found

theorem nearby?_isSome (lower : readsAs units ⟨exact.digits / 10 ^ dropped, exact.exponent + dropped⟩) :
    (nearby? tie units exact dropped).isSome := by
  unfold nearby?
  dsimp only
  rw [lower]
  split
  · rfl
  · rfl
  · rfl
  · next none _ => cases none

/-- No decimal is found that drops fewer digits than can be dropped. -/
theorem exponent_le_shortestFrom (enough : dropped ≤ start)
    (found : dropped = 0 ∨ (nearby? tie units exact dropped).isSome) :
    exact.exponent + dropped ≤ (shortestFrom tie units exact start).exponent := by
  induction start with
  | zero =>
    obtain rfl : dropped = 0 := by omega
    rw [shortestFrom]
    omega
  | succ start ih =>
    rw [shortestFrom]
    cases here : nearby? tie units exact (start + 1) with
    | some d =>
      rw [Option.getD_some, exponent_of_nearby? here]
      omega
    | none =>
      rw [Option.getD_none]
      refine ih ?_
      by_contra last
      obtain rfl : dropped = start + 1 := by omega
      rcases found with none | found
      · cases none
      · rw [here] at found
        cases found

theorem ofUnits_whole (n : Nat) :
    ∃ places : Nat, ofUnits (n * Binary64.unitsPerOne) = ⟨n * 10 ^ places, -places⟩ := by
  obtain ⟨bits, places, split, same⟩ : ∃ bits places : Nat, bits + places = 1074 ∧
      ofUnits (n * Binary64.unitsPerOne) =
        ⟨n * Binary64.unitsPerOne / 2 ^ bits * 5 ^ places, -places⟩ :=
    ⟨_, _, Nat.sub_add_cancel (Nat.sub_le _ _), rfl⟩
  refine ⟨places, ?_⟩
  have one : Binary64.unitsPerOne = 2 ^ places * 2 ^ bits := by
    rw [← Nat.pow_add, Nat.add_comm, split, Binary64.unitsPerOne]
  rw [same, one, ← Nat.mul_assoc, Nat.mul_div_cancel _ (Nat.two_pow_pos _), Nat.mul_assoc, ← Nat.mul_pow]

theorem numerator_whole (n : Nat) : (⟨n, 0⟩ : Decimal).numerator = n * Binary64.unitsPerOne := by
  rw [numerator, Int.toNat_zero, Nat.pow_zero, Nat.mul_one]

theorem toBinary64_whole (n : Nat) : (⟨n, 0⟩ : Decimal).toBinary64 false = .ofNat n := by
  have denominator : (⟨n, 0⟩ : Decimal).denominator = 1 := rfl
  rw [toBinary64_eq_round, numerator_whole, denominator, Binary64.ofNat]

theorem readsAs_whole (representable : Representable (n * Binary64.unitsPerOne)) :
    (⟨n, 0⟩ : Decimal).readsAs (n * Binary64.unitsPerOne) := by
  have denominator : (⟨n, 0⟩ : Decimal).denominator = 1 := rfl
  rw [readsAs_iff representable]
  intro negative
  have rounded := Binary64.round_of_representable representable Nat.one_pos negative
  rw [toBinary64_eq_round, numerator_whole, denominator]
  rw [Nat.mul_one (n * Binary64.unitsPerOne)] at rounded
  exact rounded

/-- The shortest decimal of a whole number has no fraction. -/
theorem exponent_shortest_whole (tie : Tie) (some : n ≠ 0)
    (representable : Representable (n * Binary64.unitsPerOne)) :
    0 ≤ (shortest tie (n * Binary64.unitsPerOne)).exponent := by
  obtain ⟨places, exact⟩ := ofUnits_whole n
  have scale : 0 < 10 ^ places := Nat.pow_pos (by omega)
  have found : (nearby? tie (n * Binary64.unitsPerOne) ⟨n * 10 ^ places, -places⟩ places).isSome := by
    refine nearby?_isSome ?_
    rw [Nat.mul_div_cancel _ scale, Int.add_left_neg]
    exact readsAs_whole representable
  have enough : places ≤ (toDigits 10 (n * 10 ^ places)).length - 1 := by
    have positive := Nat.length_toDigits_pos (b := 10) (n := n)
    rw [toDigits_mul_pow some, List.length_append, List.length_replicate]
    omega
  have least := exponent_le_shortestFrom enough (Or.inr found)
  rw [Int.add_left_neg] at least
  rw [shortest, exact]
  exact least

/-- Below `2 ^ 53` a decimal is read as a whole number only if its value is below `2 ^ 53`. -/
theorem div_lt_of_readsAs (reads : d.readsAs units) (small : units < 2 ^ 53 * Binary64.unitsPerOne) :
    d.numerator / d.denominator < 2 ^ 53 * Binary64.unitsPerOne := by
  by_contra large
  rw [Nat.not_lt, Binary64.two_pow_mul_unitsPerOne] at large
  rw [Binary64.two_pow_mul_unitsPerOne] at small
  have some : d.numerator / d.denominator ≠ 0 := Nat.ne_of_gt (Nat.lt_of_lt_of_le (Nat.two_pow_pos _) large)
  have bits := (Nat.le_log2 some).mpr large
  have rounded := two_pow_log2_le_roundUnits some
  rw [roundUnits_of_readsAs reads] at rounded
  have power := Nat.le_trans (Nat.pow_le_pow_right (by omega) bits) rounded
  exact Nat.not_lt.mpr power small

theorem eq_of_readsAs_whole (reads : d.readsAs (n * Binary64.unitsPerOne)) (whole : 0 ≤ d.exponent)
    (small : n < 2 ^ 53) : d.digits * 10 ^ d.exponent.toNat = n := by
  have positive : 0 < Binary64.unitsPerOne := Nat.two_pow_pos _
  have denominator : d.denominator = 1 := by
    have none : (-d.exponent).toNat = 0 := by omega
    rw [Decimal.denominator, none, Nat.pow_zero]
  have below := div_lt_of_readsAs reads (Nat.mul_lt_mul_of_pos_right small positive)
  rw [denominator, Nat.div_one, numerator] at below
  have value : d.digits * 10 ^ d.exponent.toNat < 2 ^ 53 := Nat.lt_of_mul_lt_mul_right below
  have exact := roundUnits_of_dvd (representable_whole (Nat.le_of_lt value)).1 Nat.one_pos
  have rounded := roundUnits_of_readsAs reads
  rw [denominator, numerator] at rounded
  rw [Nat.mul_one, rounded] at exact
  exact (Nat.eq_of_mul_eq_mul_right positive exact).symm

/-- The digits before the point of such a decimal are below `2 ^ 53` too. -/
theorem ofDigitChars_lt_of_readsAs (reads : d.readsAs units) (small : units < 2 ^ 53 * Binary64.unitsPerOne)
    {whole rest : List Char} (digits : toDigits 10 d.digits = whole ++ rest)
    (places : d.exponent = -(rest.length : Int)) : ofDigitChars 10 whole 0 < 2 ^ 53 := by
  have value : d.digits = 10 ^ rest.length * ofDigitChars 10 whole 0 + ofDigitChars 10 rest 0 := by
    rw [← Nat.ofDigitChars_eq_ofDigitChars_zero, ← Nat.ofDigitChars_append, ← digits,
      Nat.ofDigitChars_ten_toDigits]
  have none : d.exponent.toNat = 0 := by omega
  have count : (-d.exponent).toNat = rest.length := by omega
  have below := div_lt_of_readsAs reads small
  rw [numerator, denominator, none, count, Nat.pow_zero, Nat.mul_one, value] at below
  refine Nat.lt_of_mul_lt_mul_right (Nat.lt_of_le_of_lt ?_ below)
  rw [Nat.le_div_iff_mul_le (Nat.pow_pos (by omega)), Nat.mul_right_comm, Nat.mul_comm _ (10 ^ _)]
  exact Nat.mul_le_mul_right _ (Nat.le_add_right ..)

/-- All digits behind a point among the significant ones stand for the exponent. -/
theorem exists_behind_point {whole fraction : List Char} (split : d.significant = whole ++ fraction)
    (longer : fraction ≠ []) (place : d.leading = whole.length - 1) :
    ∃ behind, behind ≠ [] ∧ toDigits 10 d.digits = whole ++ behind ∧
      d.exponent = -(behind.length : Int) := by
  obtain ⟨zeros, digits⟩ := d.toDigits_eq_significant
  rw [split, List.append_assoc] at digits
  refine ⟨fraction ++ List.replicate zeros '0', by simp [longer], digits, ?_⟩
  rw [leading, digits, List.length_append] at place
  omega

/-- What lies beyond `2 ^ 53` is whole. -/
theorem lt_of_exponent_shortest (tie : Tie) (representable : Representable units)
    (fraction : (shortest tie units).exponent < 0) : units < 2 ^ 53 * Binary64.unitsPerOne := by
  by_contra large
  rw [Nat.not_lt, Binary64.two_pow_mul_unitsPerOne] at large
  have some : units ≠ 0 := Nat.ne_of_gt (Nat.lt_of_lt_of_le (Nat.two_pow_pos _) large)
  have bits := (Nat.le_log2 some).mpr large
  have spare : 1074 ≤ spareBits units := by
    unfold spareBits
    omega
  obtain ⟨n, whole⟩ : Binary64.unitsPerOne ∣ units := by
    rw [Binary64.unitsPerOne]
    exact Nat.dvd_trans (Nat.pow_dvd_pow 2 spare) representable.1
  have nonzero : n ≠ 0 := fun zero => some (by rw [whole, zero, Nat.mul_zero])
  rw [whole, Nat.mul_comm] at fraction representable
  exact Int.not_le.mpr fraction (exponent_shortest_whole tie nonzero representable)

end Decimal

namespace Numeral

theorem read_digits {text : List Char} (some : text ≠ []) (digits : ∀ c ∈ text, c.isDigit) :
    read text = .ofNat (ofDigitChars 10 text 0) := by
  have decimal := decimal?_whole some digits exponent_nil false
  rw [List.append_nil] at decimal
  have value : ofDecimal text = .ofNat (ofDigitChars 10 text 0) := by
    rw [← Decimal.toBinary64_whole]
    exact ofDecimal_eq decimal
  have number : ofDecimal text ≠ .nan := by
    rw [value, Binary64.ofNat, Binary64.round]
    split <;> simp
  rw [read_of_ofDecimal some (fun c member => isNumeric_of_isDigit (digits c member)) number, value]

theorem write_ofNat {n : Nat} (small : n < 2 ^ 53) : write (.ofNat n) = toDigits 10 n := by
  rw [Binary64.ofNat_eq small.le, write, Layout.chars]
  by_cases zero : n = 0
  · rw [if_pos (by rw [zero, Nat.zero_mul]), zero]
    rfl
  have representable := representable_whole small.le
  have whole := Decimal.exponent_shortest_whole layout.tie zero representable
  have value := Decimal.eq_of_readsAs_whole (Decimal.readsAs_shortest layout.tie representable) whole small
  rw [if_neg (Binary64.mul_unitsPerOne_ne_zero zero), Layout.signed_false]
  generalize Decimal.shortest layout.tie (n * Binary64.unitsPerOne) = d at whole value
  have some : d.digits ≠ 0 := by
    intro none
    rw [none, Nat.zero_mul] at value
    exact zero value.symm
  obtain ⟨zeros, split⟩ := d.toDigits_eq_significant
  have digits : toDigits 10 n = d.significant ++ List.replicate (zeros + d.exponent.toNat) '0' := by
    rw [← value, toDigits_mul_pow some, split, List.append_assoc, List.replicate_append_replicate]
  have short : (toDigits 10 n).length ≤ 16 := (Nat.length_toDigits_le_iff (by omega) (by omega)).mpr (by omega)
  have first := List.length_pos_iff.mpr (Decimal.significant_ne_nil some)
  have length := congrArg List.length split
  rw [digits, List.length_append, List.length_replicate] at short
  rw [List.length_append, List.length_replicate] at length
  obtain ⟨leading, same⟩ : ∃ leading : Nat, d.leading = Int.ofNat leading ∧
      leading + 1 = d.significant.length + (zeros + d.exponent.toNat) := by
    refine ⟨d.significant.length + (zeros + d.exponent.toNat) - 1, ?_, by omega⟩
    have cast : ∀ k : Nat, Int.ofNat k = (k : Int) := fun _ => rfl
    rw [Decimal.leading, cast]
    omega
  have least : layout.least = -6 := rfl
  have greatest : layout.greatest = 20 := rfl
  have plain : layout.pointZero = false := rfl
  have cast : Int.ofNat leading = (leading : Int) := rfl
  rw [Layout.magnitude, if_pos (by rw [same.1, cast, least, greatest]; omega), same.1, Layout.positional,
    if_pos (by omega), plain, if_neg Bool.false_ne_true, List.append_nil, digits]
  congr 2
  omega

/-- A magnitude is written by digits, with an exponent, or with a point. Then the digits before it write a
whole number. -/
theorem magnitude_cases {units : Nat} (representable : Representable units) (some : units ≠ 0) :
    (∀ c ∈ layout.magnitude (.shortest layout.tie units), c.isDigit) ∨
      'e' ∈ layout.magnitude (.shortest layout.tie units) ∨
        ∃ (n : Nat) (fraction : List Char), n < 2 ^ 53 ∧ fraction ≠ [] ∧ (∀ c ∈ fraction, c.isDigit) ∧
          layout.magnitude (.shortest layout.tie units) = toDigits 10 n ++ '.' :: fraction := by
  have reads := Decimal.readsAs_shortest layout.tie representable
  have bound := fun fraction => Decimal.lt_of_exponent_shortest layout.tie representable fraction
  have digits := Decimal.digits_shortest_ne_zero layout.tie representable some
  generalize Decimal.shortest layout.tie units = d at reads bound digits
  have are := isDigit_significant d
  have first := Decimal.significant_ne_nil digits
  unfold Layout.magnitude
  split
  · rcases positional_forms d.significant d.leading with
      ⟨zeros, _, text⟩ | ⟨zeros, _, _, text⟩ | ⟨whole, fraction, nonempty, longer, split, place, text⟩
    · exact Or.inr (Or.inr ⟨0, List.replicate zeros '0' ++ d.significant, by omega, by simp [first],
        List.forall_mem_append.mpr ⟨isDigit_zeros zeros, are⟩, text⟩)
    · rw [text]
      exact Or.inl (List.forall_mem_append.mpr ⟨are, isDigit_zeros zeros⟩)
    · -- Digits remain behind the point, so the number is not whole and lies below `2 ^ 53`.
      obtain ⟨behind, more, front, places⟩ := Decimal.exists_behind_point split longer place
      have positive := List.length_pos_iff.mpr more
      have below : d.exponent < 0 := by omega
      rw [text]
      refine Or.inr (Or.inr ⟨ofDigitChars 10 whole 0, fraction,
        Decimal.ofDigitChars_lt_of_readsAs reads (bound below) front places, longer,
        (List.forall_mem_append.mp (split ▸ are)).2, ?_⟩)
      rw [← eq_toDigits_of_append nonempty front]
  · right
    left
    unfold Layout.exponential
    simp

end Numeral

end Formula
