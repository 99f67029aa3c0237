import Formula.Numeral

/-!
# Written numbers

The characters of a written number. They are digits but for the sign, the point and the exponent, and
the names of the numbers that have no digits.
-/

namespace Formula

theorem toNat_of_isDigit {c : Char} (digit : c.isDigit) : 48 ≤ c.toNat ∧ c.toNat ≤ 57 := by
  simp only [Char.isDigit, Bool.and_eq_true, decide_eq_true_eq, UInt32.le_iff_toNat_le] at digit
  exact digit

theorem isBlank_of_isDigit {c : Char} (digit : c.isDigit) : isBlank c = false := by
  obtain ⟨low, high⟩ := toNat_of_isDigit digit
  simp only [isBlank, Bool.or_eq_false_iff, Bool.and_eq_false_iff, decide_eq_false_iff_not,
    beq_eq_false_iff_ne]
  omega

theorem isDigit_toDigits (n : Nat) : ∀ c ∈ Nat.toDigits 10 n, c.isDigit :=
  fun _ member => Nat.isDigit_of_mem_toDigits (by omega) (by omega) member

namespace Numeral

/-- The characters of a number that is written without a sign. -/
def isNumeric (c : Char) : Bool :=
  c.isDigit || c ∈ ".e+-Infinity".toList

/-- A number that is written without a sign: digits, the name of infinity, or characters among which
one that is no digit stands behind others. -/
structure Unsigned (text : List Char) : Prop where
  numeric : ∀ c ∈ text, isNumeric c
  first : ∃ c rest, text = c :: rest ∧ (c.isDigit ∨ c = 'e' ∨ c = 'I')
  form : (∀ c ∈ text, c.isDigit) ∨ text = "Infinity".toList ∨
    ∃ before c behind, text = before ++ c :: behind ∧ before ≠ [] ∧ (c = '.' ∨ c = '+' ∨ c = '-')

theorem isNumeric_of_isDigit {c : Char} (digit : c.isDigit) : isNumeric c := by
  rw [isNumeric, digit]
  rfl

theorem of_isNumeric {p : Char → Bool} (digit : ∀ c, c.isDigit → p c = false)
    (other : ".e+-Infinity".toList.all fun c => !p c) {c : Char} (numeric : isNumeric c) :
    p c = false := by
  simp only [isNumeric, Bool.or_eq_true, decide_eq_true_eq] at numeric
  simp only [List.all_eq_true, Bool.not_eq_true'] at other
  exact numeric.elim (digit c) (other c)

theorem isBlank_of_isNumeric {c : Char} (numeric : isNumeric c) : isBlank c = false :=
  of_isNumeric (fun _ => isBlank_of_isDigit) (by decide) numeric

theorem isDigit_significant (d : Decimal) : ∀ c ∈ d.significant, c.isDigit := by
  intro c member
  rw [Decimal.significant, List.mem_reverse] at member
  have digit := (List.dropWhile_sublist _).mem member
  exact isDigit_toDigits _ c (List.mem_reverse.mp digit)

theorem isDigit_zeros (count : Nat) : ∀ c ∈ List.replicate count '0', c.isDigit := by
  intro c member
  rw [List.eq_of_mem_replicate member]
  rfl

theorem unsigned_of_digits {text : List Char} (some : text ≠ []) (digits : ∀ c ∈ text, c.isDigit) :
    Unsigned text := by
  obtain ⟨c, rest, rfl⟩ := List.exists_cons_of_ne_nil some
  refine ⟨fun d member => isNumeric_of_isDigit (digits d member), ⟨c, rest, rfl, Or.inl ?_⟩,
    Or.inl digits⟩
  exact digits c (List.mem_cons_self ..)

/-- Positional writing puts zeros in front of the digits or behind them, or a point between them. -/
theorem positional_forms (digits : List Char) (leading : Int) :
    (∃ zeros : Nat, leading = -zeros - 1 ∧
        layout.positional digits leading = '0' :: '.' :: (List.replicate zeros '0' ++ digits)) ∨
      (∃ zeros : Nat, leading = digits.length + zeros - 1 ∧ digits ++ List.replicate zeros '0' ≠ [] ∧
        layout.positional digits leading = digits ++ List.replicate zeros '0') ∨
      ∃ whole fraction, whole ≠ [] ∧ fraction ≠ [] ∧ digits = whole ++ fraction ∧
        leading = whole.length - 1 ∧ layout.positional digits leading = whole ++ '.' :: fraction := by
  cases leading with
  | negSucc below => exact Or.inl ⟨below, by omega, rfl⟩
  | ofNat leading =>
    have cast : Int.ofNat leading = (leading : Int) := rfl
    have plain : layout.pointZero = false := rfl
    right
    rw [Layout.positional, plain, if_neg Bool.false_ne_true, List.append_nil, cast]
    split
    · next fits =>
      refine Or.inl ⟨leading + 1 - digits.length, by omega, fun empty => ?_, rfl⟩
      have length := congrArg List.length empty
      rw [List.length_append, List.length_replicate, List.length_nil] at length
      omega
    · next longer =>
      have some : digits ≠ [] := by
        rintro rfl
        exact longer (Nat.zero_le _)
      refine Or.inr ⟨digits.take (leading + 1), digits.drop (leading + 1), by simp [some],
        by simp [longer], (List.take_append_drop ..).symm, ?_, rfl⟩
      rw [List.length_take_of_le (by omega)]
      omega

theorem unsigned_point {whole fraction : List Char} (some : whole ≠ []) (are : ∀ c ∈ whole, c.isDigit)
    (are' : ∀ c ∈ fraction, c.isDigit) : Unsigned (whole ++ '.' :: fraction) := by
  obtain ⟨c, rest, rfl⟩ := List.exists_cons_of_ne_nil some
  refine ⟨fun d member => ?_, ⟨c, _, rfl, Or.inl (are c (List.mem_cons_self ..))⟩,
    Or.inr (Or.inr ⟨_, '.', _, rfl, some, Or.inl rfl⟩)⟩
  rcases List.mem_append.mp member with before | behind
  · exact isNumeric_of_isDigit (are d before)
  · rcases List.mem_cons.mp behind with rfl | behind
    · rfl
    · exact isNumeric_of_isDigit (are' d behind)

theorem unsigned_positional {digits : List Char} (are : ∀ c ∈ digits, c.isDigit) (leading : Int) :
    Unsigned (layout.positional digits leading) := by
  rcases positional_forms digits leading with
    ⟨zeros, _, text⟩ | ⟨zeros, _, some, text⟩ | ⟨whole, fraction, some, _, rfl, _, text⟩
  · have zero : ∀ c ∈ ['0'], c.isDigit := List.all_eq_true.mp rfl
    rw [text]
    exact unsigned_point (List.cons_ne_nil '0' []) zero (List.forall_mem_append.mpr ⟨isDigit_zeros _, are⟩)
  · rw [text]
    exact unsigned_of_digits some (List.forall_mem_append.mpr ⟨are, isDigit_zeros _⟩)
  · obtain ⟨before, behind⟩ := List.forall_mem_append.mp are
    rw [text]
    exact unsigned_point some before behind

theorem unsigned_exponential {digits : List Char} (are : ∀ c ∈ digits, c.isDigit) (leading : Int) :
    Unsigned (layout.exponential digits leading) := by
  obtain ⟨sign, exponent, signed, expDigits, text⟩ : ∃ sign exponent, (sign = '+' ∨ sign = '-') ∧
      (∀ c ∈ exponent, c.isDigit) ∧ layout.exponential digits leading =
        digits.take 1 ++ (if (digits.drop 1).isEmpty then [] else '.' :: digits.drop 1) ++
          'e' :: sign :: exponent := by
    cases leading with
    | ofNat above => exact ⟨'+', Nat.toDigits 10 above, Or.inl rfl, isDigit_toDigits above, rfl⟩
    | negSucc below =>
      exact ⟨'-', Nat.toDigits 10 (below + 1), Or.inr rfl, isDigit_toDigits (below + 1), rfl⟩
  rw [text]
  refine ⟨fun c member => ?_, ?_, Or.inr (Or.inr ?_)⟩
  · rcases List.mem_append.mp member with mantissa | behind
    · rcases List.mem_append.mp mantissa with whole | fraction
      · exact isNumeric_of_isDigit (are c (List.mem_of_mem_take whole))
      · split at fraction
        · cases fraction
        · rcases List.mem_cons.mp fraction with rfl | digit
          · rfl
          · exact isNumeric_of_isDigit (are c (List.mem_of_mem_drop digit))
    · simp only [List.mem_cons] at behind
      rcases behind with rfl | rfl | digit
      · rfl
      · rcases signed with rfl | rfl <;> rfl
      · exact isNumeric_of_isDigit (expDigits c digit)
  · cases digits with
    | nil => exact ⟨'e', _, rfl, Or.inr (Or.inl rfl)⟩
    | cons c rest => exact ⟨c, _, rfl, Or.inl (are c (List.mem_cons_self ..))⟩
  · refine ⟨_ ++ ['e'], sign, exponent, by rw [List.append_assoc _ ['e']]; rfl, by simp, ?_⟩
    exact Or.inr signed

theorem write_unsigned {n : Binary64} (number : n ≠ .nan) :
    ∃ negative text, write n = Layout.signed negative text ∧ Unsigned text := by
  cases n with
  | nan => exact absurd rfl number
  | infinity negative =>
    refine ⟨negative, "Infinity".toList, rfl, ?_, ⟨'I', _, rfl, Or.inr (Or.inr rfl)⟩, Or.inr (Or.inl rfl)⟩
    exact List.all_eq_true.mp (by decide)
  | finite negative units representable =>
    rw [write, Layout.chars]
    split
    · exact ⟨_, ['0'], rfl, unsigned_of_digits (by simp) (List.all_eq_true.mp rfl)⟩
    · refine ⟨negative, _, rfl, ?_⟩
      unfold Layout.magnitude
      split
      · exact unsigned_positional (isDigit_significant _) _
      · exact unsigned_exponential (isDigit_significant _) _

theorem isNumeric_write {n : Binary64} (number : n ≠ .nan) : ∀ c ∈ write n, isNumeric c := by
  obtain ⟨negative, text, written, unsigned⟩ := write_unsigned number
  rw [written, Layout.signed]
  split
  · exact List.forall_mem_cons.mpr ⟨rfl, unsigned.numeric⟩
  · exact unsigned.numeric

theorem write_ne_nil (n : Binary64) : write n ≠ [] := by
  by_cases number : n = .nan
  · rw [number]
    decide
  · obtain ⟨negative, text, written, unsigned⟩ := write_unsigned number
    obtain ⟨c, rest, start, _⟩ := unsigned.first
    rw [written, start, Layout.signed]
    split <;> exact List.cons_ne_nil _ _

end Numeral

end Formula
