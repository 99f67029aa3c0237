import Formula.Proofs.Spaced
import Formula.Proofs.Written

/-!
# Legible vocabularies

What the tokens of a vocabulary must be like for operators and numbers to be read again as they are written.
One token may begin or contain another one that would have to be separated there, and a token before an operand
may begin a number.
-/

namespace Formula

variable {m : Type → Type} {C : Type}

/-- Whether the written form of a number is read in one piece: tokens must be separated from it, or it
is whole and has no sign. -/
def Spacing.Admits (spacing : Spacing) (n : Binary64) : Prop :=
  spacing = .always ∨ (∀ c ∈ Numeral.write n, c.isDigit) ∨
    Numeral.write n = "Infinity".toList ∧ spacing = .wordsOnly

namespace Numeral

/-- The characters with which a number can start. -/
def isFirst (c : Char) : Bool :=
  c == '-' || c.isDigit || c == 'e' || c == 'I'

variable {n : Binary64} (number : n ≠ .nan)

include number

theorem isFirst_head?_write : (write n).head?.any isFirst := by
  obtain ⟨negative, text, written, unsigned⟩ := write_unsigned number
  obtain ⟨first, rest, rfl, kind⟩ := unsigned.first
  rw [written, Layout.signed]
  cases negative with
  | true => rfl
  | false => rcases kind with digit | rfl | rfl <;> simp [isFirst, *]

/-- A sign is followed by a digit or by a letter. -/
theorem head?_behind_minus {later : List Char} (minus : write n = '-' :: later) :
    later.head?.any Char.isAlphanum := by
  obtain ⟨negative, text, written, unsigned⟩ := write_unsigned number
  obtain ⟨first, rest, rfl, kind⟩ := unsigned.first
  rw [written, Layout.signed] at minus
  cases negative with
  | true =>
    cases minus
    rcases kind with digit | rfl | rfl
    · simp [Char.isAlphanum, digit]
    · rfl
    · rfl
  | false =>
    cases minus
    rcases kind with digit | exponent | infinity
    · exact absurd digit (by decide)
    · exact absurd exponent (by decide)
    · exact absurd infinity (by decide)

end Numeral

namespace Vocabulary

/-- Whether no binary operator can be recognized inside a token. -/
def Intact (v : Vocabulary m C) (spacing : Spacing) (token : String) : Prop :=
  ∀ other ∈ v.binary, ∀ before later, token.toList = before ++ (other.token.toList ++ later) →
    before ≠ [] → other.token.toList ≠ [] → later ≠ [] → spacing.separates (isWord other.token.toList)

/-- Whether the tokens of a vocabulary are recognized where they are written out. An empty token never is. -/
structure Legible (v : Vocabulary m C) (spacing : Spacing) : Prop where
  clear : v.Clear
  digits : ∀ c, c.isDigit → v.Avoids c
  stands : ∀ entry ∈ Entry.table v.binary, entry.token ≠ [] → (Grammar.ofVocabulary v spacing).Stands entry
  constants : (v.constants.map fun op => op.token.toList).Nodup
  unary : (v.unary.map fun op => op.token.toList).Nodup
  apart : ∀ op ∈ v.constants, ∀ other ∈ v.unary, op.token.toList ≠ other.token.toList
  starting : ∀ op ∈ v.constants ++ v.unary, ∀ other ∈ v.constants ++ v.unary, ∀ later,
    op.token.toList = other.token.toList ++ later → other.token.toList ≠ [] → later ≠ [] →
      spacing.separates (isWord other.token.toList) ∧ later.head?.any Char.isAlphanum
  /-- Where no token need be separated, `undefined` contains the operator `in`. -/
  intact : ∀ op ∈ v.constants, (spacing = .optional → op.token ≠ "undefined") → v.Intact spacing op.token
  intactUnary : ∀ op ∈ v.unary, v.Intact spacing op.token
  number : ∀ n : Binary64, n ≠ .nan → spacing.Admits n → ∀ op ∈ v.constants ++ v.unary, ∀ later,
    Numeral.write n = op.token.toList ++ later → op.token.toList ≠ [] →
      spacing.separates (isWord op.token.toList) ∧ later.head?.any Char.isAlphanum
  /-- The point is the tightest operator, and no other token contains one. -/
  point : v.binary.head?.map Operator.token = .some "."
  pointed : ∀ op ∈ v.binary, '.' ∈ op.token.toList → op.token = "."

variable {v : Vocabulary m C} {spacing : Spacing}

theorem mem_of_mem_tables {entry : Entry m C}
    (member : entry ∈ Entry.table v.constants ++ Entry.table v.unary) :
    entry.op ∈ v.constants ++ v.unary ∧ entry.token = entry.op.token.toList ∧
      entry.word = isWord entry.op.token.toList := by
  rcases List.mem_append.mp member with constant | unary
  · have token := Entry.token_of_mem_table constant
    exact ⟨List.mem_append_left _ (Entry.op_mem_of_mem_table constant), token,
      token ▸ Entry.word_of_mem_table constant⟩
  · have token := Entry.token_of_mem_table unary
    exact ⟨List.mem_append_right _ (Entry.op_mem_of_mem_table unary), token,
      token ▸ Entry.word_of_mem_table unary⟩

theorem Clear.isBlank_eq_false (clear : v.Clear) {op : Operator m C} (listed : op ∈ v.constants ++ v.unary)
    {c : Char} (inToken : c ∈ op.token.toList) : isBlank c = false := by
  rw [← Bool.not_eq_true]
  intro blank
  rcases List.mem_append.mp listed with constant | unary
  · exact (clear.blank c blank).constants op constant inToken
  · exact (clear.blank c blank).unary op unary inToken

theorem Clear.bracket?_eq_none (clear : v.Clear) {op : Operator m C} (listed : op ∈ v.constants ++ v.unary)
    {c : Char} (inToken : c ∈ op.token.toList) : (Scan.bracket? c : Option (Stop m C)) = none := by
  have outside : ∀ d, v.Avoids d → c ≠ d := by
    rintro d avoids rfl
    rcases List.mem_append.mp listed with constant | unary
    · exact avoids.constants op constant inToken
    · exact avoids.unary op unary inToken
  exact Scan.bracket?_eq_none (outside _ clear.opening) (outside _ clear.closing)

/-! ## The built-in operators -/

namespace SpelledAsBuiltin

theorem avoids_digit (spelled : v.SpelledAsBuiltin) {c : Char} (digit : c.isDigit) : v.Avoids c :=
  spelled.avoids_class (by decide) digit

theorem intact (spelled : v.SpelledAsBuiltin) {op : Operator m C} (listed : op ∈ v.constants ++ v.unary)
    (readable : spacing = .optional → op.token ≠ "undefined") : v.Intact spacing op.token := by
  have binary : ∀ token ∈ v.constants.map Operator.token ++ v.unary.map Operator.token,
      ∀ other ∈ v.binary.map Operator.token, other.toList.all (· ∈ token.toList.dropLast) →
        isWord other.toList ∧ token = "undefined" := by
    rw [spelled.constants, spelled.unary, spelled.binary]
    decide
  rw [← List.map_append] at binary
  intro other member before later split _ _ some
  have within : other.token.toList.all (· ∈ op.token.toList.dropLast) := by
    rw [List.all_eq_true, split, ← List.append_assoc, List.dropLast_append_of_ne_nil some]
    intro d inside
    simp [inside]
  obtain ⟨word, name⟩ := binary _ (List.mem_map_of_mem listed) _ (List.mem_map_of_mem member) within
  rw [word]
  cases spacing with
  | wordsOnly | always => rfl
  | optional => exact absurd name (readable rfl)

/-- Of the tokens that can stand before an operand, only the minus starts a number. -/
theorem sign_of_write (spelled : v.SpelledAsBuiltin) {n : Binary64} (number : n ≠ .nan) {op : Operator m C}
    (listed : op ∈ v.constants ++ v.unary) {later : List Char}
    (split : Numeral.write n = op.token.toList ++ later) :
    Numeral.write n = '-' :: later ∧ later.head?.any Char.isAlphanum := by
  have tokens : ∀ token ∈ v.constants.map Operator.token ++ v.unary.map Operator.token,
      token.toList ≠ [] ∧ (token = "-" ∨ token.toList.head?.any Numeral.isFirst = false) := by
    rw [spelled.constants, spelled.unary]
    decide
  rw [← List.map_append] at tokens
  obtain ⟨some, minus | other⟩ := tokens _ (List.mem_map_of_mem listed)
  · rw [minus] at split
    exact ⟨split, Numeral.head?_behind_minus number split⟩
  · obtain ⟨c, rest, token⟩ := List.exists_cons_of_ne_nil some
    have first := Numeral.isFirst_head?_write number
    rw [token] at other
    rw [split, token, List.cons_append, List.head?_cons, ← List.head?_cons (l := rest), other] at first
    cases first

theorem legible (spelled : v.SpelledAsBuiltin) (spacing : Spacing) : v.Legible spacing where
  clear := spelled.tidy.clear
  digits _ := spelled.avoids_digit
  stands _ member _ := spelled.tidy.stands member
  constants := by
    rw [map_toList_token, spelled.constants]
    decide
  unary := by
    rw [map_toList_token, spelled.unary]
    decide
  apart := by
    have tokens : ∀ token ∈ v.constants.map Operator.token, ∀ other ∈ v.unary.map Operator.token,
        token.toList ≠ other.toList := by
      rw [spelled.constants, spelled.unary]
      decide
    exact fun op constant other unary => tokens _ (List.mem_map_of_mem constant) _ (List.mem_map_of_mem unary)
  starting := by
    have tokens : ∀ token ∈ v.constants.map Operator.token ++ v.unary.map Operator.token,
        ∀ other ∈ v.constants.map Operator.token ++ v.unary.map Operator.token,
          other.toList <+: token.toList → other.toList = token.toList := by
      rw [spelled.constants, spelled.unary]
      decide
    rw [← List.map_append] at tokens
    intro op listed other listed' later split _ some
    have same := tokens _ (List.mem_map_of_mem listed) _ (List.mem_map_of_mem listed') ⟨later, split.symm⟩
    rw [same, List.self_eq_append_right] at split
    exact absurd split some
  intact op constant := spelled.intact (List.mem_append_left _ constant)
  intactUnary op unary := by
    have tokens : ∀ token ∈ v.unary.map Operator.token, token ≠ "undefined" := by
      rw [spelled.unary]
      decide
    exact spelled.intact (List.mem_append_right _ unary) fun _ => tokens _ (List.mem_map_of_mem unary)
  number n number admits op listed later split _ := by
    obtain ⟨sign, word⟩ := spelled.sign_of_write number listed split
    refine ⟨?_, word⟩
    rcases admits with rfl | digits | ⟨infinity, _⟩
    · rfl
    · exact absurd (digits '-' (by simp [sign])) (by decide)
    · rw [infinity] at sign
      exact absurd (List.cons.inj sign).1 (by decide)
  point := by
    rw [← List.head?_map, spelled.binary]
    rfl
  pointed := by
    have tokens : ∀ token ∈ v.binary.map Operator.token, '.' ∈ token.toList → token = "." := by
      rw [spelled.binary]
      decide
    exact fun op member => tokens _ (List.mem_map_of_mem member)

end SpelledAsBuiltin

end Vocabulary

end Formula
