import Formula.Proofs.Joining
import Formula.Proofs.Radix

/-!
# Texts that are numbers

The texts that are read as numbers, described without reference to how they are read: nothing at all, infinity, whole
numbers in other radixes, decimal numerals.
-/

namespace Formula.Numeral

/-- The letters that announce digits of a radix after a zero. -/
def marksOf : Nat → List Char
  | 2 => ['b', 'B']
  | 8 => ['o', 'O']
  | 16 => ['x', 'X']
  | _ => []

/-- A text that spells a number. Only infinity and decimal numerals may have a sign. -/
inductive IsNumeral : List Char → Prop
  | empty : IsNumeral []
  | infinity {sign : List Char} (signs : IsSign sign) : IsNumeral (sign ++ "Infinity".toList)
  | radix {radix : Nat} {mark : Char} {digits : List Char} (marks : mark ∈ marksOf radix) (some : digits ≠ [])
      (are : ∀ c ∈ digits, c ∈ digitsOf radix) : IsNumeral ('0' :: mark :: digits)
  | decimal {text : List Char} (decimal : IsDecimal text) : IsNumeral text

section

variable {radix : Nat} {mark c : Char} {digits text : List Char}

theorem known_of_marks (marks : mark ∈ marksOf radix) : radix ∈ [2, 8, 16] := by
  unfold marksOf at marks
  split at marks
  · decide
  · decide
  · decide
  · cases marks

theorem of_marks {p : Nat → Char → Bool} (all : [2, 8, 16].all fun radix => (marksOf radix).all (p radix))
    (marks : mark ∈ marksOf radix) : p radix mark :=
  List.all_eq_true.mp (List.all_eq_true.mp all radix (known_of_marks marks)) mark marks

theorem radix?_eq_some_iff : radix? mark = some radix ↔ mark ∈ marksOf radix := by
  constructor
  · intro known
    unfold radix? at known
    split at known <;> cases known <;> decide
  · intro marks
    have all : [2, 8, 16].all fun radix => (marksOf radix).all fun c => radix? c = some radix := by decide
    exact of_decide_eq_true (of_marks all marks)

/-! ## Digits of other radixes -/

theorem isNaN_ofRadix (known : radix ∈ [2, 8, 16]) :
    (ofRadix radix digits).isNaN = false ↔ digits ≠ [] ∧ ∀ c ∈ digits, c ∈ digitsOf radix := by
  constructor
  · intro number
    have some : digits ≠ [] := by
      rintro rfl
      cases number
    refine ⟨some, fun c member => ?_⟩
    rw [← digit?_isSome_iff known, Option.isSome_iff_ne_none]
    intro none
    rw [ofRadix, if_neg some, mapM_eq_none member none] at number
    cases number
  · rintro ⟨some, are⟩
    rw [ofRadix_eq known some are]
    exact Binary64.isNaN_eq_false (Binary64.round_ne_nan _ _ _)

/-! ## Kinds of numerals told apart -/

theorem not_isDecimal_of_marks (marks : mark ∈ marksOf radix) : ¬IsDecimal ('0' :: mark :: digits) := by
  intro decimal
  have part := decimal.mem_cases (List.mem_cons_of_mem _ (List.mem_cons_self ..))
  have apart : [2, 8, 16].all fun radix => (marksOf radix).all fun c =>
      ¬(c.isDigit ∨ c = '.' ∨ c ∈ ['e', 'E', '-', '+']) := by decide
  exact of_decide_eq_true (of_marks apart marks) part

theorem splitSign_infinity {sign : List Char} (signs : IsSign sign) :
    (splitSign (sign ++ "Infinity".toList)).2 = "Infinity".toList := by
  rcases signs with rfl | rfl | rfl <;> rfl

/-- A numeral that does not start as the digits of another radix do is infinity or a decimal one. -/
theorem IsNumeral.cases_of_unmarked (numeral : IsNumeral text) (some : text ≠ [])
    (unmarked : ∀ radix mark digits, mark ∈ marksOf radix → text ≠ '0' :: mark :: digits) :
    (splitSign text).2 = "Infinity".toList ∨ IsDecimal text := by
  cases numeral with
  | empty => exact absurd rfl some
  | infinity signs => exact Or.inl (splitSign_infinity signs)
  | radix marks => exact absurd rfl (unmarked _ _ _ marks)
  | decimal decimal => exact Or.inr decimal

theorem isNumeral_of_infinity (name : (splitSign text).2 = "Infinity".toList) : IsNumeral text := by
  obtain ⟨sign, signs, split⟩ := exists_splitSign text
  rw [split, name]
  exact .infinity signs

theorem isNumeral_zero_cons_iff (marks : mark ∈ marksOf radix) :
    IsNumeral ('0' :: mark :: digits) ↔ digits ≠ [] ∧ ∀ c ∈ digits, c ∈ digitsOf radix := by
  constructor
  · intro numeral
    generalize same : '0' :: mark :: digits = text at numeral
    cases numeral with
    | empty => cases same
    | infinity signs =>
      have name := splitSign_infinity signs
      rw [← same] at name
      cases name
    | radix marks' some are =>
      cases same
      have found := radix?_eq_some_iff.mpr marks
      rw [radix?_eq_some_iff.mpr marks', Option.some.injEq] at found
      rw [← found]
      exact ⟨some, are⟩
    | decimal decimal =>
      rw [← same] at decimal
      exact absurd decimal (not_isDecimal_of_marks marks)
  · rintro ⟨some, are⟩
    exact .radix marks some are

/-! ## Blanks -/

theorem IsNumeral.solid (numeral : IsNumeral text) (member : c ∈ text) : isBlank c = false := by
  cases numeral with
  | empty => cases member
  | infinity signs =>
    rcases List.mem_append.mp member with sign | name
    · exact isBlank_of_mark (mem_of_isSign signs sign)
    · have solid : "Infinity".toList.all fun c => !isBlank c := by decide
      simpa using List.all_eq_true.mp solid c name
  | radix marks some are =>
    have solid : [2, 8, 16].all fun radix => (marksOf radix).all fun c => !isBlank c := by decide
    have solid' : [2, 8, 16].all fun radix => (digitsOf radix).all fun c => !isBlank c := by decide +kernel
    have solid' := List.all_eq_true.mp (List.all_eq_true.mp solid' _ (known_of_marks marks))
    rcases List.mem_cons.mp member with rfl | member
    · rfl
    rcases List.mem_cons.mp member with rfl | member
    · simpa using of_marks solid marks
    · simpa using solid' c (are c member)
  | decimal decimal => exact decimal.solid member

/-! ## Reading -/

theorem isNaN_read {text : List Char} : (read text).isNaN = false ↔ IsNumeral (trim text) := by
  unfold read
  generalize trim text = trimmed
  split
  · exact iff_of_true rfl .empty
  · next mark digits =>
    split
    · next radix known =>
      have marks := radix?_eq_some_iff.mp known
      rw [isNaN_ofRadix (known_of_marks marks), isNumeral_zero_cons_iff marks]
    · next other =>
      rw [isNaN_ofDecimal]
      refine ⟨.decimal, fun numeral => ?_⟩
      refine (numeral.cases_of_unmarked (List.cons_ne_nil _ _) ?_).resolve_left fun name => nomatch name
      rintro radix _ _ marks ⟨⟩
      rw [radix?_eq_some_iff.mpr marks] at other
      cases other
  · next nonempty unmarked =>
    dsimp only
    split
    · next name => exact iff_of_true rfl (isNumeral_of_infinity name)
    · next other =>
      rw [isNaN_ofDecimal]
      refine ⟨.decimal, fun numeral => ?_⟩
      exact (numeral.cases_of_unmarked nonempty fun _ mark digits _ => unmarked mark digits).resolve_left other

/-- A text is read as NaN if and only if what is left of it without the blanks around it is not a numeral, and so if it
is not a numeral with blanks around it. -/
theorem isNaN_read_iff (text : List Char) :
    ((read text).isNaN ↔ ¬IsNumeral (trim text)) ∧
      ((read text).isNaN ↔ ¬∃ before numeral behind, text = before ++ (numeral ++ behind) ∧
        (∀ c ∈ before, isBlank c) ∧ (∀ c ∈ behind, isBlank c) ∧ IsNumeral numeral) := by
  have trimmed : (read text).isNaN ↔ ¬IsNumeral (trim text) := by
    rw [← isNaN_read, Bool.not_eq_false]
  refine ⟨trimmed, trimmed.trans (not_congr ⟨fun numeral => ?_, ?_⟩)⟩
  · obtain ⟨before, behind, split, blank, blank'⟩ := exists_trim_split text
    exact ⟨before, _, behind, split, blank, blank', numeral⟩
  · rintro ⟨before, numeral, behind, rfl, blank, blank', spells⟩
    rwa [trim_append_of_blanks blank, trim_append_blanks blank', trim_of_solid fun _ => spells.solid]

end

end Formula.Numeral
