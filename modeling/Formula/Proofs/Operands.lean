import Formula.Proofs.Parts
import Formula.Proofs.Spaced
import Formula.Proofs.Written

/-!
# Operands

What the text of an operand can be, in which a scan with the built-in tokens has recognized nothing. Where
tokens need not be separated, its numbers are whole and have no sign.
-/

namespace Formula

variable {m : Type → Type} {C : Type}

/-! ## Digits -/

theorem isQuote_of_isDigit {c : Char} (digit : c.isDigit) : isQuote c = false := by
  obtain ⟨low, high⟩ := toNat_of_isDigit digit
  simp only [isQuote, Bool.or_eq_false_iff, beq_eq_false_iff_ne]
  constructor
  · rintro rfl
    exact absurd low (by decide)
  · rintro rfl
    exact absurd low (by decide)

/-! ## Values of operands -/

theorem Value.exists_dropClosingQuote (text : List Char) :
    ∃ quote, text = dropClosingQuote text ++ quote ∧ (quote = [] ∨ ∃ c, quote = [c] ∧ isQuote c) := by
  unfold dropClosingQuote
  split
  · next closing =>
    cases last : text.getLast? with
    | none => simp [last] at closing
    | some c =>
      rw [last] at closing
      obtain ⟨before, rfl⟩ := List.getLast?_eq_some_iff.mp last
      exact ⟨[c], by rw [List.dropLast_concat], Or.inr ⟨c, rfl, closing⟩⟩
  · exact ⟨[], (List.append_nil text).symm, Or.inl rfl⟩

theorem Value.dropOpeningQuote_eq_self {text : List Char} (unquoted : text.head?.any isQuote = false) :
    dropOpeningQuote text = text := by
  cases text with
  | nil => rfl
  | cons c rest =>
    have plain : isQuote c = false := unquoted
    rw [dropOpeningQuote, plain]
    rfl

/-- An operand is a number only if it is the written form of that number, but for a quote behind it. -/
theorem Value.of_ofOperand_eq_number {text : List Char} {n : Binary64}
    (value : Value.ofOperand text = .number n) :
    n ≠ .nan ∧ Numeral.read (Numeral.write n) = n ∧
      ∃ quote, text = Numeral.write n ++ quote ∧ (quote = [] ∨ ∃ c, quote = [c] ∧ isQuote c) := by
  unfold ofOperand at value
  dsimp only at value
  split at value
  · cases value
  next unquoted =>
  rw [Bool.not_eq_true] at unquoted
  rw [dropOpeningQuote_eq_self unquoted, ofUnquoted] at value
  split at value
  next spelled =>
    cases value
    simp only [Bool.and_eq_true, Bool.not_eq_true', beq_iff_eq] at spelled
    obtain ⟨number, written⟩ := spelled
    refine ⟨fun none => by simp [none, Binary64.isNaN] at number, by rw [written], ?_⟩
    rw [written]
    exact exists_dropClosingQuote text
  · cases value

theorem Value.ofOperand_eq (text : List Char) :
    (∃ s, Value.ofOperand text = .string s) ∨ ∃ n, Value.ofOperand text = .number n := by
  unfold ofOperand ofUnquoted
  dsimp only
  split
  · exact Or.inl ⟨_, rfl⟩
  · split
    · exact Or.inr ⟨_, rfl⟩
    · exact Or.inl ⟨_, rfl⟩

/-! ## Tokens that cannot be missed -/

namespace Scan

section

variable {g : Grammar m C} {entry : Entry m C} {c : Char} {buffer left rest : List Char}

/-- Behind an operand, a binary token that need not be separated is recognized, unless a longer one is
meant. -/
theorem mark_free_binary (member : entry ∈ g.binary) (some : entry.token ≠ [])
    (ending : entry.longerEnding = []) (starting : entry.longerStarting = [])
    (free : g.spacing.separates entry.word = false) (solid : trim left.reverse ≠ [])
    (unquoted : isOpenQuote (trim left.reverse) = false)
    (split : c :: buffer = entry.token.reverse ++ left) :
    mark g false buffer c rest ≠ .nothing := by
  intro marked
  have missed := (mark_nothing marked).2.2
  rw [List.find?_eq_none] at missed
  refine missed entry member (endsWith_iff.mpr ⟨left, split, some, Or.inr solid, unquoted, ?_, ?_, ?_⟩)
  · simp only [ending, List.not_mem_nil, false_imp_iff, implies_true]
  · simp only [starting, List.not_mem_nil, false_imp_iff, implies_true]
  · simp only [free, Bool.false_eq_true, false_imp_iff]

/-- Before an operand, a unary token that need not be separated is recognized. -/
theorem mark_free_unary (member : entry ∈ g.unary) (some : entry.token ≠ [])
    (free : g.spacing.separates entry.word = false) (token : trim (c :: buffer).reverse = entry.token) :
    mark g false buffer c rest ≠ .nothing := by
  intro marked
  have missed := (mark_nothing marked).2.1
  rw [candidate, if_neg Bool.false_ne_true, token, whole?, if_neg some, List.find?_eq_none] at missed
  refine missed entry member ?_
  simp only [free, Bool.false_and, Bool.not_false, Bool.and_true, beq_self_eq_true]

/-- What is read before an operand without its blanks. -/
theorem quiet_trim {text : List Char} (quiet : Quiet g false [] text rest) :
    ∃ blanks behind, (∀ d ∈ blanks, isBlank d) ∧ Quiet g false blanks (trim text) behind := by
  obtain ⟨before, behind, split, blanks, _⟩ := exists_trim_split text
  rw [split] at quiet
  have inner := (quiet_append.mp quiet).2
  rw [List.append_nil] at inner
  refine ⟨before.reverse, behind ++ rest, ?_, (quiet_append.mp inner).1⟩
  exact fun d member => blanks d (List.mem_reverse.mp member)

end

end Scan

/-! ## Operands between built-in tokens -/

theorem Spacing.separates_symbol {spacing : Spacing} (free : spacing ≠ .always) {token : List Char}
    (symbol : isWord token = false) : spacing.separates (isWord token) = false := by
  rw [symbol]
  cases spacing with
  | wordsOnly | optional => rfl
  | always => exact absurd rfl free

namespace Vocabulary.SpelledAsBuiltin

variable {v : Vocabulary m C} {spacing : Spacing} {text blanks before behind rest : List Char}
  {d : Char} {token : String}

/-- These binary tokens neither start nor end another one. -/
theorem exists_alone (spelled : v.SpelledAsBuiltin) (listed : token ∈ [".", "+", "-", "in"]) :
    ∃ entry ∈ Entry.table v.binary, entry.token = token.toList ∧ entry.word = isWord token.toList ∧
      entry.longerEnding = [] ∧ entry.longerStarting = [] := by
  have binary : ∀ token ∈ [".", "+", "-", "in"], token ∈ v.binary.map Operator.token := by
    rw [spelled.binary]
    decide
  have alone : ∀ token ∈ [".", "+", "-", "in"], ∀ other ∈ v.binary.map fun op => op.token.toList,
      token.toList <:+ other ∨ token.toList <+: other → other.length ≤ token.toList.length := by
    rw [map_toList_token, spelled.binary]
    decide
  obtain ⟨entry, member, spelling, word⟩ := Entry.exists_of_token_mem (binary token listed)
  refine ⟨entry, member, spelling, word, ?_, ?_⟩
  · rw [List.eq_nil_iff_forall_not_mem]
    intro longer found
    obtain ⟨other, extra, some, rfl⟩ := (Entry.mem_longerEnding member).mp found
    rw [spelling] at other
    have short := alone token listed _ other (Or.inl (List.suffix_append ..))
    rw [List.length_append] at short
    exact some (List.length_eq_zero_iff.mp (by omega))
  · rw [List.eq_nil_iff_forall_not_mem]
    intro longer found
    obtain ⟨other, extra, some, rfl⟩ := (Entry.mem_longerStarting member).mp found
    rw [spelling] at other
    have short := alone token listed _ other (Or.inr (List.prefix_append ..))
    rw [List.length_append] at short
    exact some (List.length_eq_zero_iff.mp (by omega))

/-- Where tokens need not be separated, none of these is missed behind the start of an operand. -/
theorem not_quiet (spelled : v.SpelledAsBuiltin) (listed : token ∈ [".", "+", "-", "in"])
    (free : spacing.separates (isWord token.toList) = false) (blank : ∀ e ∈ blanks, isBlank e)
    (solid : isBlank d = false) (plain : isQuote d = false) :
    ¬Scan.Quiet (.ofVocabulary v spacing) false blanks (d :: before ++ (token.toList ++ behind)) rest := by
  intro quiet
  obtain ⟨entry, member, spelling, word, ending, starting⟩ := spelled.exists_alone listed
  have some : token.toList ≠ [] := by
    have tokens : ∀ token ∈ [".", "+", "-", "in"], token.toList ≠ [] := by decide
    exact tokens token listed
  obtain ⟨front, last, split⟩ : ∃ front last, token.toList = front ++ [last] :=
    ⟨_, _, (List.dropLast_concat_getLast some).symm⟩
  have left := trim_reverse_append blank (d :: before)
  obtain ⟨kept, start, _⟩ := exists_trim_cons solid before
  have text : d :: before ++ (token.toList ++ behind) = (d :: before ++ front) ++ last :: behind := by
    simp [split]
  have reversed : last :: ((d :: before ++ front).reverse ++ blanks) =
      entry.token.reverse ++ ((d :: before).reverse ++ blanks) := by
    rw [spelling, split]
    simp
  rw [text, Scan.quiet_append] at quiet
  refine Scan.mark_free_binary member (spelling ▸ some) ending starting ?_ ?_ ?_ reversed quiet.2.1
  · rw [word]
    exact free
  · rw [left, start]
    exact List.cons_ne_nil _ _
  · rw [left, start, isOpenQuote, plain, Bool.false_and]

/-- Where tokens need not be separated, a sign in front of an operand is not missed. -/
theorem not_quiet_sign (spelled : v.SpelledAsBuiltin) (free : spacing ≠ .always)
    (blank : ∀ e ∈ blanks, isBlank e) :
    ¬Scan.Quiet (.ofVocabulary v spacing) false blanks ('-' :: behind) rest := by
  rintro ⟨marked, _⟩
  have listed : "-" ∈ v.unary.map Operator.token := by
    rw [spelled.unary]
    decide
  obtain ⟨entry, member, spelling, word⟩ := Entry.exists_of_token_mem listed
  refine Scan.mark_free_unary member (by rw [spelling]; decide) ?_ ?_ marked
  · rw [word]
    exact Spacing.separates_symbol free (by decide)
  · rw [List.reverse_cons, spelling]
    exact trim_append_of_blanks (fun e inside => blank e (List.mem_reverse.mp inside)) _

/-- Nor is a point or a sign behind the start of one. -/
theorem not_quiet_symbol (spelled : v.SpelledAsBuiltin) (free : spacing ≠ .always) {c : Char}
    (symbol : c = '.' ∨ c = '+' ∨ c = '-') (blank : ∀ e ∈ blanks, isBlank e) (solid : isBlank d = false)
    (plain : isQuote d = false) :
    ¬Scan.Quiet (.ofVocabulary v spacing) false blanks (d :: before ++ c :: behind) rest := by
  obtain ⟨token, listed, spelling, word⟩ : ∃ token ∈ [".", "+", "-", "in"], token.toList = [c] ∧
      isWord token.toList = false := by
    rcases symbol with rfl | rfl | rfl
    · exact ⟨".", by decide, by decide, by decide⟩
    · exact ⟨"+", by decide, by decide, by decide⟩
    · exact ⟨"-", by decide, by decide, by decide⟩
  have text : c :: behind = token.toList ++ behind := by
    rw [spelling]
    rfl
  rw [text]
  exact spelled.not_quiet listed (Spacing.separates_symbol free word) blank solid plain

/-- Where tokens need not be separated, a number is read as an operand only if it is whole and has no
sign, or is infinite. -/
theorem number_of_quiet (spelled : v.SpelledAsBuiltin) (free : spacing ≠ .always) {n : Binary64}
    (quiet : Scan.Quiet (.ofVocabulary v spacing) false [] text rest)
    (value : Value.ofOperand (trim text) = .number n) :
    (∀ c ∈ Numeral.write n, c.isDigit) ∨
      Numeral.write n = "Infinity".toList ∧ spacing = .wordsOnly := by
  obtain ⟨blanks, behind, blank, quiet⟩ := Scan.quiet_trim quiet
  obtain ⟨number, _, quote, split, _⟩ := Value.of_ofOperand_eq_number value
  obtain ⟨negative, digits, written, unsigned⟩ := Numeral.write_unsigned number
  rw [split, written] at quiet
  rw [written]
  cases negative with
  | true => exact absurd quiet (spelled.not_quiet_sign free blank)
  | false =>
    rcases unsigned.form with plain | rfl | ⟨before, c, later, rfl, some, symbol⟩
    · exact Or.inl plain
    · refine Or.inr ⟨rfl, ?_⟩
      cases spacing with
      | wordsOnly => rfl
      | always => exact absurd rfl free
      | optional =>
        have name : "Infinity".toList = 'I' :: ['n', 'f'] ++ ("in".toList ++ "ity".toList) := by decide
        rw [Layout.signed_false, name, List.append_assoc, List.append_assoc] at quiet
        exact absurd quiet (spelled.not_quiet (by decide) rfl blank rfl rfl)
    · obtain ⟨d, before, rfl⟩ := List.exists_cons_of_ne_nil some
      obtain ⟨_, _, first, kind⟩ := unsigned.first
      cases first
      have start : isBlank d = false ∧ isQuote d = false := by
        rcases kind with digit | rfl | rfl
        · exact ⟨isBlank_of_isDigit digit, isQuote_of_isDigit digit⟩
        · exact ⟨rfl, rfl⟩
        · exact ⟨rfl, rfl⟩
      rw [Layout.signed_false, List.append_assoc] at quiet
      exact absurd quiet (spelled.not_quiet_symbol free symbol blank start.1 start.2)

/-- Where no token need be separated, a constant that contains `in` cannot be read. -/
theorem constant_of_quiet (spelled : v.SpelledAsBuiltin) {c : Char}
    (quiet : Scan.Quiet (.ofVocabulary v .optional) false [] text (c :: rest)) :
    trim (text ++ [c]) ≠ "undefined".toList := by
  intro constant
  obtain ⟨before, behind, split, blank, _⟩ := exists_trim_split (text ++ [c])
  have name : "undefined".toList = 'u' :: "ndef".toList ++ ("in".toList ++ "ed".toList) := by decide
  have whole : text = before ++ ('u' :: "ndef".toList ++ ("in".toList ++ ("ed".toList ++ behind).dropLast)) := by
    have shorter := congrArg List.dropLast split
    have some : "ed".toList ++ behind ≠ [] := by simp
    have parts : before ++ ('u' :: "ndef".toList ++ ("in".toList ++ "ed".toList) ++ behind) =
        (before ++ ('u' :: "ndef".toList ++ "in".toList)) ++ ("ed".toList ++ behind) := by
      simp only [List.append_assoc, List.cons_append]
    rw [List.dropLast_concat, constant, name, parts, List.dropLast_append_of_ne_nil some] at shorter
    rw [shorter]
    simp only [List.append_assoc, List.cons_append]
  rw [whole, Scan.quiet_append] at quiet
  refine spelled.not_quiet (by decide) rfl ?_ rfl rfl quiet.2
  intro e member
  rw [List.append_nil] at member
  exact blank e (List.mem_reverse.mp member)

end Vocabulary.SpelledAsBuiltin

end Formula
