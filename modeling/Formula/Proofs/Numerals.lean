import Formula.Proofs.Decimals
import Formula.Proofs.Trimming
import Formula.Proofs.Written

/-!
# Numerals

The written form of a number is read as that number. Positional writing and writing with an exponent only
move the point of the shortest decimal.
-/

namespace Formula

open Nat (ofDigitChars)

/-! ## Digits -/

theorem ofDigitChars_zeros (digits : List Char) (zeros : Nat) :
    ofDigitChars 10 (digits ++ List.replicate zeros '0') 0 = ofDigitChars 10 digits 0 * 10 ^ zeros := by
  rw [Nat.ofDigitChars_append, Nat.ofDigitChars_replicate_zero, Nat.mul_comm]

theorem Decimal.toDigits_eq_significant (d : Decimal) :
    ∃ zeros, Nat.toDigits 10 d.digits = d.significant ++ List.replicate zeros '0' := by
  let reversed := (Nat.toDigits 10 d.digits).reverse
  have dropped : reversed.takeWhile (· == '0') =
      List.replicate (reversed.takeWhile (· == '0')).length '0' :=
    List.eq_replicate_iff.mpr ⟨rfl, fun c member => by simpa using List.mem_takeWhile_imp member⟩
  refine ⟨(reversed.takeWhile (· == '0')).length, ?_⟩
  have split := congrArg List.reverse (List.takeWhile_append_dropWhile (p := (· == '0')) (l := reversed))
  rw [List.reverse_append, dropped, List.reverse_replicate, List.reverse_reverse] at split
  exact split.symm

/-- Trailing zeros of the digits are left to the exponent. -/
theorem Decimal.exists_zeros (d : Decimal) :
    ∃ zeros : Nat, d.digits = ofDigitChars 10 d.significant 0 * 10 ^ zeros ∧
      d.leading = d.exponent + zeros + d.significant.length - 1 := by
  obtain ⟨zeros, split⟩ := d.toDigits_eq_significant
  refine ⟨zeros, ?_, ?_⟩
  · rw [← ofDigitChars_zeros, ← split, Nat.ofDigitChars_ten_toDigits]
  · rw [leading, split, List.length_append, List.length_replicate]
    omega

theorem Decimal.significant_ne_nil {d : Decimal} (some : d.digits ≠ 0) : d.significant ≠ [] := by
  intro empty
  obtain ⟨zeros, value, _⟩ := d.exists_zeros
  rw [empty, Nat.ofDigitChars_nil, Nat.zero_mul] at value
  exact some value

namespace Numeral

theorem splitSign_of_isDigit {text : List Char} (digit : ∃ c rest, text = c :: rest ∧ c.isDigit)
    (negative : Bool) : splitSign (Layout.signed negative text) = (negative, text) := by
  obtain ⟨c, rest, rfl, digit⟩ := digit
  cases negative with
  | true => rfl
  | false =>
    rw [Layout.signed_false]
    unfold splitSign
    split
    · next same =>
      cases same
      cases digit
    · next same =>
      cases same
      cases digit
    · rfl

theorem takeWhile_isDigit {digits rest : List Char} (are : ∀ c ∈ digits, c.isDigit)
    (stop : rest.head?.any Char.isDigit = false) :
    (digits ++ rest).takeWhile Char.isDigit = digits ∧ (digits ++ rest).dropWhile Char.isDigit = rest := by
  rw [List.takeWhile_append_of_pos are, List.dropWhile_append_of_pos are, dropWhile_of_head? stop]
  refine ⟨?_, rfl⟩
  cases rest with
  | nil => exact List.append_nil digits
  | cons c rest =>
    have other : c.isDigit = false := stop
    rw [List.takeWhile_cons, other, if_neg Bool.false_ne_true, List.append_nil]

/-- The end of a numeral: nothing, or an exponent. -/
structure Exponent (text : List Char) (exponent : Int) : Prop where
  read : exponent? text = some exponent
  stop : text = [] ∨ ∃ rest, text = 'e' :: rest

theorem exponent_nil : Exponent [] 0 :=
  ⟨rfl, Or.inl rfl⟩

theorem exponent_signed {negative : Bool} {sign : Char} (signs : sign = if negative then '-' else '+')
    (magnitude : Nat) :
    Exponent ('e' :: sign :: Nat.toDigits 10 magnitude)
      (if negative then -(magnitude : Int) else magnitude) := by
  have split : splitSign (sign :: Nat.toDigits 10 magnitude) = (negative, Nat.toDigits 10 magnitude) := by
    rw [signs]
    cases negative <;> rfl
  refine ⟨?_, Or.inr ⟨_, rfl⟩⟩
  unfold exponent?
  dsimp only
  rw [split]
  dsimp only
  rw [if_pos ⟨Or.inl rfl, Nat.toDigits_ne_nil, List.all_eq_true.mpr (isDigit_toDigits magnitude)⟩,
    Nat.ofDigitChars_ten_toDigits]

section

variable {whole fraction text : List Char} {exponent : Int}

theorem exists_isDigit (some : whole ≠ []) (are : ∀ c ∈ whole, c.isDigit) (text : List Char) :
    ∃ c rest, whole ++ text = c :: rest ∧ c.isDigit := by
  obtain ⟨c, rest, rfl⟩ := List.exists_cons_of_ne_nil some
  exact ⟨c, rest ++ text, rfl, are c (List.mem_cons_self ..)⟩

theorem decimal?_whole (some : whole ≠ []) (are : ∀ c ∈ whole, c.isDigit) (ends : Exponent text exponent)
    (negative : Bool) :
    decimal? (Layout.signed negative (whole ++ text)) =
      .some (negative, ⟨ofDigitChars 10 whole 0, exponent⟩) := by
  have stop : text.head?.any Char.isDigit = false := by
    rcases ends.stop with rfl | ⟨rest, rfl⟩ <;> rfl
  have point : splitFraction text = ([], text) := by
    rcases ends.stop with rfl | ⟨rest, rfl⟩ <;> rfl
  obtain ⟨first, behind⟩ := takeWhile_isDigit are stop
  unfold decimal?
  rw [splitSign_of_isDigit (exists_isDigit some are text)]
  dsimp only
  rw [first, behind, point]
  dsimp only
  rw [if_neg fun none => some none.1, ends.read, List.append_nil, Option.map_some]
  exact congrArg (fun e => Option.some (negative, (⟨ofDigitChars 10 whole 0, e⟩ : Decimal)))
    (Int.sub_zero exponent)

theorem decimal?_point (some : whole ≠ []) (are : ∀ c ∈ whole, c.isDigit)
    (are' : ∀ c ∈ fraction, c.isDigit) (ends : Exponent text exponent) (negative : Bool) :
    decimal? (Layout.signed negative (whole ++ '.' :: (fraction ++ text))) =
      .some (negative, ⟨ofDigitChars 10 (whole ++ fraction) 0, exponent - fraction.length⟩) := by
  have stop : text.head?.any Char.isDigit = false := by
    rcases ends.stop with rfl | ⟨rest, rfl⟩ <;> rfl
  have pointed : ('.' :: (fraction ++ text)).head?.any Char.isDigit = false := rfl
  obtain ⟨first, behind⟩ := takeWhile_isDigit are pointed
  obtain ⟨digits, after⟩ := takeWhile_isDigit are' stop
  unfold decimal?
  rw [splitSign_of_isDigit (exists_isDigit some are _)]
  dsimp only
  rw [first, behind, splitFraction, digits, after]
  dsimp only
  rw [if_neg fun none => some none.1, ends.read]
  rfl

end

/-! ## Written decimals -/

theorem ofDecimal_eq {text : List Char} {negative : Bool} {d : Decimal}
    (reads : decimal? text = some (negative, d)) : ofDecimal text = d.toBinary64 negative := by
  rw [ofDecimal, reads]

theorem ofDecimal_positional {digits : List Char} (some : digits ≠ []) (are : ∀ c ∈ digits, c.isDigit)
    (leading : Int) (negative : Bool) :
    ofDecimal (Layout.signed negative (layout.positional digits leading)) =
      Decimal.toBinary64 negative ⟨ofDigitChars 10 digits 0, leading + 1 - digits.length⟩ := by
  rcases positional_forms digits leading with
    ⟨zeros, rfl, text⟩ | ⟨zeros, rfl, nonempty, text⟩ | ⟨whole, fraction, nonempty, _, rfl, rfl, text⟩
  · have zero : ∀ c ∈ ['0'], c.isDigit := List.all_eq_true.mp rfl
    have reads := decimal?_point (List.cons_ne_nil '0' []) zero
      (List.forall_mem_append.mpr ⟨isDigit_zeros zeros, are⟩) exponent_nil negative
    have value : ofDigitChars 10 (['0'] ++ (List.replicate zeros '0' ++ digits)) 0 =
        ofDigitChars 10 digits 0 := by
      rw [Nat.ofDigitChars_append, Nat.ofDigitChars_append, Nat.ofDigitChars_replicate_zero]
      rfl
    have places : (0 : Int) - ((List.replicate zeros '0' ++ digits).length : Nat) =
        -zeros - 1 + 1 - digits.length := by
      rw [List.length_append, List.length_replicate]
      omega
    rw [List.append_nil, value, places] at reads
    rw [text]
    exact ofDecimal_eq reads
  · have reads := decimal?_whole nonempty (List.forall_mem_append.mpr ⟨are, isDigit_zeros zeros⟩)
      exponent_nil negative
    have places : (0 : Int) + zeros = digits.length + zeros - 1 + 1 - digits.length := by omega
    rw [List.append_nil] at reads
    rw [text, ofDecimal_eq reads, ofDigitChars_zeros, Decimal.toBinary64_zeros, places]
  · obtain ⟨before, behind⟩ := List.forall_mem_append.mp are
    have reads := decimal?_point nonempty before behind exponent_nil negative
    have places : (0 : Int) - (fraction.length : Nat) =
        whole.length - 1 + 1 - (whole ++ fraction).length := by
      rw [List.length_append]
      omega
    rw [List.append_nil, places] at reads
    rw [text]
    exact ofDecimal_eq reads

theorem ofDecimal_exponential {digits : List Char} (some : digits ≠ []) (are : ∀ c ∈ digits, c.isDigit)
    (leading : Int) (negative : Bool) :
    ofDecimal (Layout.signed negative (layout.exponential digits leading)) =
      Decimal.toBinary64 negative ⟨ofDigitChars 10 digits 0, leading + 1 - digits.length⟩ := by
  obtain ⟨exponent, text, ends⟩ : ∃ exponent, layout.exponential digits leading =
      digits.take 1 ++ (if (digits.drop 1).isEmpty then [] else '.' :: digits.drop 1) ++ exponent ∧
        Exponent exponent leading := by
    cases leading with
    | ofNat above =>
      have plus : '+' = if false then '-' else '+' := rfl
      exact ⟨_, rfl, exponent_signed plus above⟩
    | negSucc below =>
      have minus : '-' = if true then '-' else '+' := rfl
      exact ⟨_, rfl, exponent_signed minus (below + 1)⟩
  obtain ⟨c, rest, rfl⟩ := List.exists_cons_of_ne_nil some
  have first : ∀ d ∈ [c], d.isDigit := by
    intro d member
    rw [List.mem_singleton.mp member]
    exact are c (List.mem_cons_self ..)
  have others : ∀ d ∈ rest, d.isDigit := fun d member => are d (List.mem_cons_of_mem c member)
  rw [text]
  cases rest with
  | nil =>
    have reads := decimal?_whole (List.cons_ne_nil c []) first ends negative
    have places : leading + 1 - (([c].length : Nat) : Int) = leading := Int.add_sub_cancel leading 1
    rw [places]
    exact ofDecimal_eq reads
  | cons e rest =>
    have reads := decimal?_point (List.cons_ne_nil c []) first others ends negative
    have places : leading + 1 - (((c :: e :: rest).length : Nat) : Int) =
        leading - ((e :: rest).length : Nat) := by
      rw [List.length_cons]
      omega
    rw [places]
    exact ofDecimal_eq reads

theorem ofDecimal_magnitude {d : Decimal} (some : d.digits ≠ 0) (negative : Bool) :
    ofDecimal (Layout.signed negative (layout.magnitude d)) = d.toBinary64 negative := by
  obtain ⟨zeros, value, leading⟩ := d.exists_zeros
  have digits := isDigit_significant d
  have nonempty := Decimal.significant_ne_nil some
  have same : Decimal.toBinary64 negative ⟨ofDigitChars 10 d.significant 0,
      d.leading + 1 - d.significant.length⟩ = d.toBinary64 negative := by
    have places : d.leading + 1 - d.significant.length = d.exponent + zeros := by omega
    rw [places, ← Decimal.toBinary64_zeros, ← value]
  unfold Layout.magnitude
  split
  · rw [ofDecimal_positional nonempty digits, same]
  · rw [ofDecimal_exponential nonempty digits, same]

/-! ## Written numbers -/

theorem radix?_of_isNumeric {c : Char} (numeric : isNumeric c) : radix? c = none := by
  unfold radix?
  split
  all_goals first | rfl | exact absurd numeric (by decide)

theorem ofDecimal_of_infinity {text : List Char} (name : (splitSign text).2 = "Infinity".toList) :
    ofDecimal text = .nan := by
  have none : decimal? text = none := by
    unfold decimal?
    dsimp only
    rw [name]
    rfl
  rw [ofDecimal, none]

/-- A text of the characters of numbers is a decimal or the name of infinity. -/
theorem read_of_isNumeric {text : List Char} (nonempty : text ≠ []) (numeric : ∀ c ∈ text, isNumeric c) :
    read text =
      if (splitSign text).2 = "Infinity".toList then .infinity (splitSign text).1 else ofDecimal text := by
  have solid : trim text = text := trim_of_solid fun c member => isBlank_of_isNumeric (numeric c member)
  unfold read
  rw [solid]
  split
  · exact absurd rfl nonempty
  · next mark digits =>
    have plain : radix? mark = none := radix?_of_isNumeric (numeric mark (by simp))
    have unsigned : (splitSign ('0' :: mark :: digits)).2 ≠ "Infinity".toList :=
      fun name => absurd (List.cons.inj name).1 (by decide)
    rw [plain, if_neg unsigned]
  · rfl

theorem read_of_ofDecimal {text : List Char} (nonempty : text ≠ []) (numeric : ∀ c ∈ text, isNumeric c)
    (number : ofDecimal text ≠ .nan) : read text = ofDecimal text := by
  rw [read_of_isNumeric nonempty numeric, if_neg fun name => number (ofDecimal_of_infinity name)]

theorem ofDecimal_write {negative : Bool} {units : Nat} (representable : Representable units)
    (some : units ≠ 0) :
    ofDecimal (write (.finite negative units representable)) = .finite negative units representable := by
  have reads := (Decimal.readsAs_iff representable).mp (Decimal.readsAs_shortest layout.tie representable)
  have digits := Decimal.digits_shortest_ne_zero layout.tie representable some
  rw [write, Layout.chars, if_neg some, ofDecimal_magnitude digits, reads negative]

/-- Every number but NaN and negative zero is what its written form is read as. -/
theorem read_write {n : Binary64} (number : n ≠ .nan) (signed : n ≠ .zero true) : read (write n) = n := by
  cases n with
  | nan => exact absurd rfl number
  | infinity negative => cases negative <;> rfl
  | finite negative units representable =>
    by_cases zero : units = 0
    · subst zero
      cases negative with
      | true => exact absurd rfl signed
      | false => rfl
    · have exact : ofDecimal (write (.finite negative units representable)) =
        .finite negative units representable := ofDecimal_write representable zero
      rw [read_of_ofDecimal (write_ne_nil _) (isNumeric_write number) (by rw [exact]; exact nofun), exact]

theorem read_write_nan : read (write .nan) = .nan :=
  rfl

end Numeral

end Formula
