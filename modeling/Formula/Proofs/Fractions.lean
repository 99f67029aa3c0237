import Formula.Proofs.Folded
import Formula.Proofs.Joining

/-!
# Fractions

Digits with a point between them mean the decimal number that they spell. A minus before them belongs to the
digits before the point, which are rounded and written again before the others are put behind them.
-/

namespace Formula

open Nat (toDigits ofDigitChars)

/-! ## Signs -/

theorem Binary64.round_neg (num den : Nat) : round true num den = (round false num den).neg := by
  unfold round
  split <;> rfl

theorem Binary64.ofNat_unsigned (n : Nat) : ofNat n ≠ .nan ∧ (ofNat n).isNegative = false := by
  unfold ofNat round
  split <;> simp [isNegative]

theorem Decimal.toBinary64_neg (d : Decimal) : d.toBinary64 true = (d.toBinary64 false).neg := by
  rw [toBinary64_eq_round, toBinary64_eq_round, Binary64.round_neg]

section

variable {whole fraction : List Char}

theorem Numeral.read_fraction (some : whole ≠ []) (are : ∀ c ∈ whole, c.isDigit)
    (are' : ∀ c ∈ fraction, c.isDigit) (negative : Bool) :
    read (Layout.signed negative (whole ++ '.' :: fraction)) =
      Decimal.toBinary64 negative ⟨ofDigitChars 10 (whole ++ fraction) 0, -fraction.length⟩ := by
  have reads := decimal?_point some are are' exponent_nil negative
  rw [List.append_nil, Int.zero_sub] at reads
  have decimal : IsDecimal (Layout.signed negative (whole ++ '.' :: fraction)) := by
    rw [← decimal?_isSome_iff, reads]
    rfl
  have point : '.' ∈ Layout.signed negative (whole ++ '.' :: fraction) := by
    cases negative <;> simp [Layout.signed]
  rw [read_of_point point, trim_of_solid fun _ => decimal.solid, ofDecimal_eq reads]

theorem Numeral.read_neg_fraction (some : whole ≠ []) (are : ∀ c ∈ whole, c.isDigit)
    (are' : ∀ c ∈ fraction, c.isDigit) :
    read ('-' :: (whole ++ '.' :: fraction)) = (read (whole ++ '.' :: fraction)).neg := by
  have negative := read_fraction some are are' true
  have positive := read_fraction some are are' false
  rw [Layout.signed_true] at negative
  rw [Layout.signed_false] at positive
  rw [negative, positive, Decimal.toBinary64_neg]

/-- Zeros before the other digits do not count. -/
theorem Numeral.read_toDigits_fraction (some : whole ≠ []) (are : ∀ c ∈ whole, c.isDigit)
    (are' : ∀ c ∈ fraction, c.isDigit) :
    read (toDigits 10 (ofDigitChars 10 whole 0) ++ '.' :: fraction) = read (whole ++ '.' :: fraction) := by
  have digits := isDigit_toDigits (ofDigitChars 10 whole 0)
  have canonical := read_fraction Nat.toDigits_ne_nil digits are' false
  have given := read_fraction some are are' false
  rw [Layout.signed_false] at canonical given
  rw [canonical, given, Nat.ofDigitChars_append, Nat.ofDigitChars_append, Nat.ofDigitChars_ten_toDigits]

/-! ## Joining the digits -/

namespace Value

theorem ofOperand_digits (some : whole ≠ []) (are : ∀ c ∈ whole, c.isDigit) :
    (ofOperand whole).toNumber = Numeral.read whole ∧ (ofOperand whole).wholePart = whole := by
  have unquoted : ∀ c ∈ whole, isQuote c = false := fun c member => isQuote_of_isDigit (are c member)
  have text := chars_ofOperand unquoted
  rw [ofOperand_of_unquoted unquoted, ofUnquoted] at text ⊢
  split at text
  · next written =>
    refine ⟨?_, ?_⟩
    · rw [if_pos written]
      rfl
    · have unsigned := (Binary64.ofNat_unsigned (ofDigitChars 10 whole 0)).2
      rw [← Numeral.read_digits some are] at unsigned
      rw [if_pos written, wholePart, unsigned, Bool.and_false, if_neg Bool.false_ne_true]
      exact text
  · next other =>
    rw [if_neg other]
    exact ⟨congrArg Numeral.read (String.toList_ofList ..), text⟩

theorem wholePart_neg {n : Binary64} (number : n ≠ .nan) (unsigned : n.isNegative = false) :
    (Value.number n.neg).wholePart = '-' :: Numeral.write n := by
  cases zero : n.isZero with
  | false =>
    have same : n.neg.isZero = n.isZero := by cases n <;> rfl
    rw [wholePart, same, zero, Bool.false_and, if_neg Bool.false_ne_true,
      Numeral.write_neg number unsigned zero]
  | true =>
    have exact : n = .zero false := by
      cases n with
      | finite negative units representable =>
        obtain rfl : negative = false := unsigned
        obtain rfl : units = 0 := beq_iff_eq.mp zero
        rfl
      | _ => cases zero
    rw [exact]
    rfl

theorem dot_digits (host : Host) (some : whole ≠ []) (are : ∀ c ∈ whole, c.isDigit)
    (are' : ∀ c ∈ fraction, c.isDigit) :
    (ofOperand whole).dot host (ofOperand fraction) = .number (Numeral.read (whole ++ '.' :: fraction)) := by
  have before := (ofOperand_digits some are).2
  have behind := chars_ofOperand fun c member => isQuote_of_isDigit (are' c member)
  have around := Numeral.aroundPoint_digits (Or.inl rfl) (Or.inl some) are are'
  rw [List.nil_append, ← before, ← behind] at around
  rw [dot_of_around host around, before, behind]

theorem digits_of_aroundPoint (around : Numeral.AroundPoint ('-' :: whole) fraction) :
    ∀ c ∈ whole, c.isDigit := by
  generalize text : '-' :: whole = before at around
  cases around with
  | @intro blanks sign digits _ _ _ blank signs _ are =>
    cases blanks with
    | cons c blanks =>
      obtain rfl := (List.cons.inj text).1
      exact absurd (blank '-' (List.mem_cons_self ..)) (by decide)
    | nil =>
      rw [List.nil_append] at text
      rcases signs with rfl | rfl | rfl
      · rw [List.nil_append] at text
        rw [← text] at are
        exact absurd (are '-' (List.mem_cons_self ..)) (by decide)
      · rw [(List.cons.inj text).2]
        exact are
      · cases text

/-- What stands before the point is the text of a number, which need not be the digits it was read from. -/
theorem dot_negated_digits (host : Host) (some : whole ≠ []) (are : ∀ c ∈ whole, c.isDigit)
    (are' : ∀ c ∈ fraction, c.isDigit) :
    (ofOperand whole).negated.dot host (ofOperand fraction) =
      if (Numeral.write (Numeral.read whole)).all Char.isDigit then
        .number (Numeral.read (Numeral.write (Numeral.read whole) ++ '.' :: fraction)).neg
      else .absent := by
  have behind := chars_ofOperand fun c member => isQuote_of_isDigit (are' c member)
  obtain ⟨number, unsigned⟩ := Binary64.ofNat_unsigned (ofDigitChars 10 whole 0)
  rw [← Numeral.read_digits some are] at number unsigned
  have before : (ofOperand whole).negated.wholePart = '-' :: Numeral.write (Numeral.read whole) := by
    rw [negated, (ofOperand_digits some are).1, wholePart_neg number unsigned]
  generalize Numeral.read whole = n at before
  by_cases digits : ∀ c ∈ Numeral.write n, c.isDigit
  · have sign : Numeral.IsSign ['-'] := Or.inr (Or.inl rfl)
    have around := Numeral.aroundPoint_digits sign (Or.inl (Numeral.write_ne_nil n)) digits are'
    rw [List.singleton_append, ← before, ← behind] at around
    rw [if_pos (List.all_eq_true.mpr digits), dot_of_around host around, before, behind, List.cons_append,
      Numeral.read_neg_fraction (Numeral.write_ne_nil n) digits are']
  · have apart : ¬Numeral.AroundPoint (ofOperand whole).negated.wholePart (ofOperand fraction).chars := by
      rw [before]
      exact fun around => digits (digits_of_aroundPoint around)
    rw [if_neg (mt List.all_eq_true.mp digits), dot_of_not_around host apart]
    rfl

end Value

/-! ## Evaluation -/

namespace Compiler

variable {C : Type}

theorem exists_answer_fraction (host : Host) (some : whole ≠ []) (are : ∀ c ∈ whole, c.isDigit)
    (some' : fraction ≠ []) (are' : ∀ c ∈ fraction, c.isDigit) :
    ∃ t : Tree Id C,
      (standard host ⟨[], [], []⟩ .wordsOnly).answer (String.ofList (whole ++ '.' :: fraction)) = .ok t ∧
        ∀ context, t.eval context = Value.number (Numeral.read (whole ++ '.' :: fraction)) := by
  have legible := (Vocabulary.builtin_spelled (m := Id) (C := C) host).legible .wordsOnly
  obtain ⟨entry, member, token, name, _⟩ := legible.exists_point
  have point := (Vocabulary.builtin_restores host).point entry.op (Entry.op_mem_of_mem_table member) name
  have row := Grammar.ReadsRow.point legible nofun member token some are some' are' .ending
  obtain ⟨t, answer, value⟩ := exists_answer_standard host row.within.parse
  refine ⟨t, answer, fun context => ?_⟩
  rw [value, Tree.eval_binary, Tree.eval_leaf, Tree.eval_leaf, point, Value.dot_digits host some are are']

/-- The minus is applied before the digits are joined. -/
theorem exists_answer_neg_fraction (host : Host) (some : whole ≠ []) (are : ∀ c ∈ whole, c.isDigit)
    (some' : fraction ≠ []) (are' : ∀ c ∈ fraction, c.isDigit) :
    ∃ t : Tree Id C,
      (standard host ⟨[], [], []⟩ .wordsOnly).answer (String.ofList ('-' :: whole ++ '.' :: fraction)) =
          .ok t ∧
        ∀ context, t.eval context =
          if (Numeral.write (Numeral.read whole)).all Char.isDigit then
            Value.number (Numeral.read (Numeral.write (Numeral.read whole) ++ '.' :: fraction)).neg
          else Value.absent := by
  have legible := (Vocabulary.builtin_spelled (m := Id) (C := C) host).legible .wordsOnly
  have restores := Vocabulary.builtin_restores (C := C) host
  obtain ⟨entry, member, token, name, _⟩ := legible.exists_point
  obtain ⟨sign, signs, minus, negated⟩ := restores.exists_minus
  have point := restores.point entry.op (Entry.op_mem_of_mem_table member) name
  have row := Grammar.ReadsRow.minus_point legible nofun member token signs minus some are some' are' .ending
  obtain ⟨t, answer, value⟩ := exists_answer_standard host row.within.parse
  refine ⟨t, answer, fun context => ?_⟩
  rw [value, Tree.eval_binary, Tree.eval_unary, Tree.eval_leaf, Tree.eval_leaf, negated, point,
    Value.dot_negated_digits host some are are']

/-- Digits with a point between them are the number that they spell. Behind a minus they are its negation if
the digits before the point are written again as they are, without zeros in front; all below `2 ^ 53` are. If
they are rounded, so is the result, and if they are written with an exponent nothing can be joined to them. -/
theorem evaluates_fraction (host : Host) (some : whole ≠ []) (are : ∀ c ∈ whole, c.isDigit)
    (some' : fraction ≠ []) (are' : ∀ c ∈ fraction, c.isDigit) :
    (∃ t : Tree Id C,
        (standard host ⟨[], [], []⟩ .wordsOnly).answer (String.ofList (whole ++ '.' :: fraction)) = .ok t ∧
          ∀ context, t.eval context = Value.number (Numeral.read (whole ++ '.' :: fraction))) ∧
      ∃ t : Tree Id C,
        (standard host ⟨[], [], []⟩ .wordsOnly).answer (String.ofList ('-' :: whole ++ '.' :: fraction)) =
            .ok t ∧
          (Numeral.write (Numeral.read whole) = toDigits 10 (ofDigitChars 10 whole 0) →
            ∀ context, t.eval context = Value.number (Numeral.read (whole ++ '.' :: fraction)).neg) ∧
          (ofDigitChars 10 whole 0 < 2 ^ 53 →
            ∀ context, t.eval context = Value.number (Numeral.read (whole ++ '.' :: fraction)).neg) ∧
          ∀ context, t.eval context =
            if (Numeral.write (Numeral.read whole)).all Char.isDigit then
              Value.number (Numeral.read (Numeral.write (Numeral.read whole) ++ '.' :: fraction)).neg
            else Value.absent := by
  refine ⟨exists_answer_fraction host some are some' are', ?_⟩
  obtain ⟨t, answer, value⟩ := exists_answer_neg_fraction (C := C) host some are some' are'
  have restored : Numeral.write (Numeral.read whole) = toDigits 10 (ofDigitChars 10 whole 0) →
      ∀ context, t.eval context = Value.number (Numeral.read (whole ++ '.' :: fraction)).neg := by
    intro written context
    rw [value, written, Numeral.read_toDigits_fraction some are are', if_pos]
    exact List.all_eq_true.mpr fun c member => Nat.isDigit_of_mem_toDigits (by omega) (by omega) member
  refine ⟨t, answer, restored, fun small => restored ?_, value⟩
  rw [Numeral.read_digits some are, Numeral.write_ofNat small]

/-- A zero in front does not count. -/
theorem evaluates_fraction_negative :
    ∃ t : Tree Id Unit,
      (standard ⟨fun _ _ => .absent⟩ ⟨[], [], []⟩ .wordsOnly).answer "-07.50" = .ok t ∧
        t.eval none = Value.number (Numeral.read "07.50".toList).neg := by
  have whole : ∀ c ∈ ['0', '7'], c.isDigit := List.all_eq_true.mp rfl
  have fraction : ∀ c ∈ ['5', '0'], c.isDigit := List.all_eq_true.mp rfl
  obtain ⟨_, t, answer, _, small, _⟩ := evaluates_fraction (C := Unit) ⟨fun _ _ => .absent⟩
    (List.cons_ne_nil '0' ['7']) whole (List.cons_ne_nil '5' ['0']) fraction
  exact ⟨t, answer, small (by decide) none⟩

/-- The digits before the point are written again with an exponent. -/
theorem large_fraction_absent :
    ∃ t : Tree Id Unit,
      (standard ⟨fun _ _ => .absent⟩ ⟨[], [], []⟩ .wordsOnly).answer "-1000000000000000000000.5" = .ok t ∧
        t.eval none = Value.absent ∧
          Numeral.write (Numeral.read "1000000000000000000000.5".toList).neg = "-1e+21".toList := by
  have some : "1000000000000000000000".toList ≠ [] := by decide +kernel
  have digits : ∀ c ∈ "1000000000000000000000".toList, c.isDigit := List.all_eq_true.mp (by decide +kernel)
  have fraction : ∀ c ∈ ['5'], c.isDigit := List.all_eq_true.mp rfl
  have exponent : (Numeral.write (Numeral.read "1000000000000000000000".toList)).all Char.isDigit = false := by
    decide +kernel
  have text : String.ofList ('-' :: "1000000000000000000000".toList ++ '.' :: ['5']) =
      "-1000000000000000000000.5" := by decide +kernel
  obtain ⟨t, answer, value⟩ := exists_answer_neg_fraction (C := Unit) ⟨fun _ _ => .absent⟩ some digits
    (List.cons_ne_nil '5' []) fraction
  rw [text] at answer
  refine ⟨t, answer, ?_, by decide +kernel⟩
  rw [value, exponent, if_neg Bool.false_ne_true]

end Compiler

end

end Formula
