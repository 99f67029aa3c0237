import Formula.Proofs.Operands
import Formula.Proofs.Rereading

/-!
# Literals

The literals of strings and numbers are read again as operands of the same values.
-/

namespace Formula

variable {C : Type}

/-- Whether the vocabulary has the operators that literals are written with. -/
structure Vocabulary.Writes (v : Vocabulary Id C) : Prop where
  joined : ∃ op ∈ v.binary, op.token = "^" ∧ ∀ a b context, op.run [a, b] context = a.joined b
  number : ∃ op ∈ v.unary, op.token = "+" ∧ ∀ a context, op.run [a] context = a.asNumber

/-- Pieces between quotes whose contents, one after the other, are the text. -/
inductive Value.Pieces : List (List Char) → List Char → Prop where
  | nil : Pieces [] []
  | cons {quote : Char} {content text : List Char} {pieces : List (List Char)} (marks : isQuote quote)
      (once : quote ∉ content) (rest : Pieces pieces text) :
      Pieces ((quote :: content ++ [quote]) :: pieces) (content ++ text)

namespace Value

theorem Pieces.quotedPiece {before text : List Char} {pieces : List (List Char)}
    (once : '\'' ∉ before) (rest : Pieces pieces text) :
    Pieces (quotedPiece before ++ pieces) (before.reverse ++ text) := by
  unfold Value.quotedPiece
  split
  · next empty =>
    rw [empty]
    exact rest
  · exact .cons rfl (fun member => once (List.mem_reverse.mp member)) rest

theorem pieces_quotedPieces {before : List Char} (once : '\'' ∉ before) (text : List Char) :
    Pieces (quotedPieces before text) (before.reverse ++ text) := by
  induction text generalizing before with
  | nil =>
    have alone := Pieces.quotedPiece once .nil
    rw [List.append_nil] at alone
    exact alone
  | cons c rest ih =>
    rw [quotedPieces]
    split
    · next single =>
      have mark : Pieces (('"' :: ['\''] ++ ['"']) :: quotedPieces [] rest) (['\''] ++ rest) :=
        .cons rfl (by decide) (ih List.not_mem_nil)
      rw [single]
      exact .quotedPiece once mark
    · next other =>
      have outside : '\'' ∉ c :: before := by simp [once, Ne.symm other]
      have longer := ih outside
      rw [List.reverse_cons, List.append_assoc] at longer
      exact longer

theorem Pieces.ne_nil {pieces : List (List Char)} {text : List Char} (quoted : Pieces pieces text)
    (nonempty : text ≠ []) : pieces ≠ [] := by
  cases quoted with
  | nil => exact absurd rfl nonempty
  | cons => exact List.cons_ne_nil _ _

@[simp] theorem chars_string (s : String) : (Value.string s).chars = s.toList :=
  rfl

theorem joined_ofList (a b : List Char) :
    (Value.string (String.ofList a)).joined (.string (String.ofList b)) = .string (String.ofList (a ++ b)) := by
  rw [joined, chars_string, chars_string, String.toList_ofList, String.toList_ofList]

theorem ofOperand_quoted {quote : Char} (marks : isQuote quote) (content : List Char) :
    Value.ofOperand (quote :: content ++ [quote]) = .string (String.ofList content) := by
  have body : dropClosingQuote (dropOpeningQuote (quote :: content ++ [quote])) = content := by
    simp only [List.cons_append, dropOpeningQuote, marks, if_true, dropClosingQuote,
      List.getLast?_append, List.getLast?_singleton, Option.some_or, Option.any_some, List.dropLast_concat]
  unfold ofOperand
  rw [body]
  simp only [List.cons_append, List.head?_cons, Option.any_some, marks, if_true]

end Value

namespace Grammar

section

variable {m : Type → Type} {v : Vocabulary m C} {spacing : Spacing} {quote : Char} {content text : List Char}

theorem reads_quoted (clear : v.Clear) (marks : isQuote quote) (once : quote ∉ content)
    {behind : List Char} (delimits : (Grammar.ofVocabulary v spacing).Delimits behind) :
    (Grammar.ofVocabulary v spacing).ReadsAs (quote :: content ++ [quote])
      (.leaf (.string (String.ofList content))) behind := by
  have avoids := clear.quote quote marks
  have solid := Scan.isBlank_of_isQuote marks
  rw [← Value.ofOperand_quoted marks content]
  have outside : ∀ ops : List (Operator m C), (∀ op ∈ ops, quote ∉ op.token.toList) →
      ∀ entry ∈ Entry.table ops, entry.token ≠ quote :: content ++ [quote] := by
    intro ops avoid entry member token
    refine (Entry.table_avoids avoid entry member).token ?_
    rw [token]
    exact List.mem_cons_self ..
  refine reads_operand clear (fun buffer blank => ?_) (trim_eq_self ?_ ?_) (by simp) ?_ ?_ delimits
  · exact Scan.quiet_quoted (ofVocabulary_avoids avoids spacing) marks blank once behind
  · simpa using solid
  · rw [List.getLast?_concat]
    simpa using solid
  · simp [isOpenQuote]
  · intro entry member
    rcases List.mem_append.mp member with constant | unary
    · exact outside _ avoids.constants entry constant
    · exact outside _ avoids.unary entry unary

/-- Pieces between quotes are joined to the text that they were taken from, ahead of evaluation if that may be
done. -/
theorem reads_pieces [Monad m] [LawfulMonad m] (clear : v.Clear) {entry : Entry m C}
    (stands : (Grammar.ofVocabulary v spacing).Stands entry) (token : entry.token = ['^'])
    (joined : ∀ a b context, entry.op.run [a, b] context = pure (a.joined b))
    {pieces : List (List Char)} (quoted : Value.Pieces pieces text) (nonempty : pieces ≠ []) :
    ∃ t : Tree m C, (∀ behind, (Grammar.ofVocabulary v spacing).Delimits behind →
      (Grammar.ofVocabulary v spacing).ReadsRow entry.priority ([' ', '^', ' '].intercalate pieces) t behind) ∧
        (entry.op.foldable → t.isFoldable) ∧
          ∀ context, t.eval context = pure (.string (String.ofList text)) := by
  induction quoted with
  | nil => exact absurd rfl nonempty
  | @cons quote content text pieces marks once rest ih =>
    cases pieces with
    | nil =>
      cases rest
      refine ⟨.leaf (.string (String.ofList content)), fun behind delimits => ?_, fun _ => rfl, fun _ => ?_⟩
      · rw [List.intercalate_singleton]
        exact (reads_quoted clear marks once delimits).row
      · rw [List.append_nil]
        rfl
    | cons next pieces =>
      obtain ⟨t, reads, folds, value⟩ := ih (List.cons_ne_nil _ _)
      refine ⟨.binary entry.op entry.priority (.leaf (.string (String.ofList content))) t,
        fun behind delimits => ?_, fun foldable => ?_, fun context => ?_⟩
      · have operator : (Grammar.ofVocabulary v spacing).Delimits (' ' :: (entry.token ++
            ' ' :: ([' ', '^', ' '].intercalate (next :: pieces) ++ behind))) := .binary stands _
        have first := reads_quoted clear marks once operator
        have atom : (Tree.leaf (.string (String.ofList content)) : Tree m C).IsAtom := trivial
        have row := first.link clear stands atom (reads behind delimits)
        rw [token] at row
        rw [List.intercalate_cons_cons, List.append_assoc]
        exact row
      · rw [Tree.isFoldable, foldable, folds foldable]
        rfl
      · rw [Tree.eval, value, Tree.eval, pure_bind, pure_bind, joined, Value.joined_ofList]

/-- The text of a string is read as that string, and as an operand. -/
theorem exists_reads_quote [Monad m] [LawfulMonad m] (clear : v.Clear) {entry : Entry m C}
    (stands : (Grammar.ofVocabulary v spacing).Stands entry) (token : entry.token = ['^'])
    (joined : ∀ a b context, entry.op.run [a, b] context = pure (a.joined b)) (s : String) :
    ∃ t : Tree m C, t.IsAtom ∧ (∀ behind, (Grammar.ofVocabulary v spacing).Delimits behind →
      (Grammar.ofVocabulary v spacing).ReadsAs (Value.quote s.toList) t behind) ∧
        (entry.op.foldable → t.isFoldable) ∧ ∀ context, t.eval context = pure (.string s) := by
  unfold Value.quote
  split
  · next once =>
    refine ⟨.leaf (.string s), trivial, fun behind delimits => ?_, fun _ => rfl, fun _ => rfl⟩
    have reads := reads_quoted clear rfl once delimits
    rwa [String.ofList_toList] at reads
  next single =>
  split
  · next once =>
    refine ⟨.leaf (.string s), trivial, fun behind delimits => ?_, fun _ => rfl, fun _ => rfl⟩
    have reads := reads_quoted clear rfl once delimits
    rwa [String.ofList_toList] at reads
  have quoted := Value.pieces_quotedPieces List.not_mem_nil s.toList
  rw [List.reverse_nil, List.nil_append] at quoted
  have nonempty : s.toList ≠ [] := List.ne_nil_of_mem (Decidable.not_not.mp single)
  obtain ⟨t, reads, folds, value⟩ := reads_pieces clear stands token joined quoted (quoted.ne_nil nonempty)
  rw [String.ofList_toList] at value
  have opening := ofVocabulary_avoids clear.opening spacing
  have closing := ofVocabulary_avoids clear.closing spacing
  exact ⟨.group t, trivial, fun behind _ => (reads _ (.closing behind)).within.group opening closing, folds, value⟩

end

variable {v : Vocabulary Id C} {spacing : Spacing} {quote : Char} {content text : List Char}

theorem rereads_quoted (clear : v.Clear) (marks : isQuote quote) (once : quote ∉ content) :
    (Grammar.ofVocabulary v spacing).Rereads (quote :: content ++ [quote])
      (.leaf (.string (String.ofList content))) :=
  ⟨.leaf (.string (String.ofList content)), trivial,
    fun _ delimits => reads_quoted clear marks once delimits, fun _ => rfl⟩

theorem rereads_quote (legible : v.Legible spacing) (writes : v.Writes) (s : String) :
    (Grammar.ofVocabulary v spacing).Rereads (Value.quote s.toList) (.leaf (.string s)) := by
  obtain ⟨op, listed, caret, joined⟩ := writes.joined
  obtain ⟨entry, member, rfl, spelling⟩ := Entry.exists_of_mem listed
  have token : entry.token = ['^'] := by
    rw [spelling, caret]
    decide
  have stands := legible.stands entry member (by simp [token])
  obtain ⟨t, atom, reads, _, value⟩ := exists_reads_quote legible.clear stands token joined s
  exact ⟨t, atom, reads, value⟩

end Grammar

/-! ## Numbers -/

namespace Numeral

theorem isQuote_of_isNumeric {c : Char} (numeric : isNumeric c) : isQuote c = false :=
  of_isNumeric (fun _ => isQuote_of_isDigit) (by decide) numeric

theorem ne_bracket_of_isNumeric {c : Char} (numeric : isNumeric c) : c ≠ '(' ∧ c ≠ ')' := by
  constructor <;>
  · rintro rfl
    revert numeric
    decide

/-- Zero is written without its sign. -/
theorem read_write_negative_zero : read (write (.zero true)) = .zero false :=
  rfl

end Numeral

namespace Binary64

variable {n : Binary64}

theorem eq_zero_of_isZero (none : n.isZero) (negative : n.isNegative) : n = .zero true := by
  cases n with
  | nan | infinity => cases none
  | finite sign units representable =>
    obtain rfl : sign = true := negative
    obtain rfl : units = 0 := beq_iff_eq.mp none
    rfl

end Binary64

/-- Text that starts and ends with no quote is taken as it is. -/
theorem Value.ofOperand_of_ends {text : List Char} (opening : text.head?.any isQuote = false)
    (closing : text.getLast?.any isQuote = false) : Value.ofOperand text = .ofUnquoted text := by
  unfold ofOperand
  dsimp only
  rw [opening, dropOpeningQuote_eq_self opening, dropClosingQuote, closing, if_neg Bool.false_ne_true,
    if_neg Bool.false_ne_true]

theorem Value.ofOperand_of_unquoted {text : List Char} (unquoted : ∀ c ∈ text, isQuote c = false) :
    Value.ofOperand text = .ofUnquoted text := by
  refine ofOperand_of_ends ?_ ?_
  · rw [Option.any_eq_false]
    exact fun c first => by simp [unquoted c (List.mem_of_head? first)]
  · rw [Option.any_eq_false]
    exact fun c last => by simp [unquoted c (List.mem_of_getLast? last)]

/-- The text form of text without quotes is the text. -/
theorem Value.chars_ofUnquoted (text : List Char) : (Value.ofUnquoted text).chars = text := by
  rw [ofUnquoted]
  split
  · next written =>
    rw [Bool.and_eq_true, beq_iff_eq] at written
    exact written.2
  · rw [chars_string, String.toList_ofList]

/-- The written form of a number is an operand of that value if it is read back. -/
theorem Value.ofOperand_write {n : Binary64} (number : n ≠ .nan)
    (exact : Numeral.read (Numeral.write n) = n) : Value.ofOperand (Numeral.write n) = .number n := by
  have unquoted : ∀ c ∈ Numeral.write n, isQuote c = false :=
    fun c member => Numeral.isQuote_of_isNumeric (Numeral.isNumeric_write number c member)
  rw [ofOperand_of_unquoted unquoted, ofUnquoted_of_read number exact]

theorem Vocabulary.Legible.unbroken_write {m : Type → Type} {v : Vocabulary m C} {spacing : Spacing}
    (legible : v.Legible spacing) {n : Binary64} (number : n ≠ .nan) (admits : spacing.Admits n)
    (behind : List Char) : Scan.Unbroken (.ofVocabulary v spacing) (Numeral.write n) behind := by
  have numeric := Numeral.isNumeric_write number
  constructor
  · exact fun c member => Numeral.isBlank_of_isNumeric (numeric c member)
  · intro c member
    obtain ⟨opening, closing⟩ := Numeral.ne_bracket_of_isNumeric (numeric c member)
    exact Scan.bracket?_eq_none opening closing
  · intro entry member later split some
    obtain ⟨listed, token, word⟩ := mem_of_mem_tables member
    rw [token] at split some
    obtain ⟨separate, next⟩ := legible.number n number admits entry.op listed later split some
    rw [word]
    refine ⟨separate, ?_⟩
    cases later with
    | nil => cases next
    | cons => exact next
  · intro entry member before later split _ some
    left
    obtain ⟨c, tail, token⟩ := List.exists_cons_of_ne_nil some
    rcases admits with rfl | digits | ⟨infinity, rfl⟩
    · rfl
    · have digit := digits c (by simp [split, token])
      exact absurd (by simp [token]) (Entry.table_avoids (legible.digits c digit).binary entry member).token
    · have letters : ∀ c ∈ "Infinity".toList, c.isAlphanum := List.all_eq_true.mp (by decide)
      have word : isWord entry.token := by
        rw [isWord, Bool.and_eq_true, Bool.not_eq_true', List.isEmpty_eq_false_iff, List.all_eq_true]
        refine ⟨some, fun c inside => letters c ?_⟩
        rw [← infinity, split]
        simp [inside]
      rw [Entry.word_of_mem_table member]
      exact word

namespace Grammar

variable {v : Vocabulary Id C} {spacing : Spacing} {n : Binary64}

theorem reads_write (legible : v.Legible spacing) (number : n ≠ .nan)
    (exact : Numeral.read (Numeral.write n) = n) (admits : spacing.Admits n) {behind : List Char}
    (delimits : (Grammar.ofVocabulary v spacing).Delimits behind) :
    (Grammar.ofVocabulary v spacing).ReadsAs (Numeral.write n) (.leaf (.number n)) behind := by
  have numeric := Numeral.isNumeric_write number
  have solid : ∀ c ∈ Numeral.write n, isBlank c = false :=
    fun c member => Numeral.isBlank_of_isNumeric (numeric c member)
  have other : ∀ entry ∈ Entry.table v.constants ++ Entry.table v.unary,
      entry.token ≠ Numeral.write n := by
    intro entry member whole
    obtain ⟨listed, token, _⟩ := Vocabulary.mem_of_mem_tables member
    rw [token] at whole
    have next := legible.number n number admits entry.op listed [] (by rw [whole, List.append_nil])
      (whole.trans_ne (Numeral.write_ne_nil n))
    exact Bool.false_ne_true next.2
  obtain ⟨c, rest, start⟩ := List.exists_cons_of_ne_nil (Numeral.write_ne_nil n)
  rw [← Value.ofOperand_write number exact]
  refine reads_operand legible.clear (fun buffer blank => ?_) (trim_of_solid solid)
    (Numeral.write_ne_nil n) ?_ other delimits
  · exact Scan.quiet_unbroken (legible.unbroken_write number admits behind) blank
  · have plain := Numeral.isQuote_of_isNumeric (numeric c (by simp [start]))
    rw [start, isOpenQuote, plain, Bool.false_and]

/-- The written form of a number between quotes stands for the number, whatever it consists of. -/
theorem rereads_quoted_number (legible : v.Legible spacing) (writes : v.Writes)
    (exact : Numeral.read (Numeral.write n) = n) :
    (Grammar.ofVocabulary v spacing).Rereads ("(+ '".toList ++ Numeral.write n ++ "')".toList)
      (.leaf (.number n)) := by
  obtain ⟨op, listed, plus, asNumber⟩ := writes.number
  obtain ⟨entry, member, rfl, spelling⟩ := Entry.exists_of_mem listed
  have token : entry.token = ['+'] := by
    rw [spelling, plus]
    decide
  have once : '\'' ∉ Numeral.write n := by
    by_cases number : n = .nan
    · rw [number]
      decide
    intro inside
    have unquoted := Numeral.isQuote_of_isNumeric (Numeral.isNumeric_write number _ inside)
    cases unquoted
  have text : "(+ '".toList ++ Numeral.write n ++ "')".toList =
      '(' :: (entry.token ++ ' ' :: ('\'' :: Numeral.write n ++ ['\'']) ++ [')']) := by
    rw [token]
    simp
  rw [text]
  refine (Rereads.unary legible member (by simp [token]) (rereads_quoted legible.clear rfl once)).congr fun context => ?_
  rw [Tree.eval_unary, Tree.eval_leaf, asNumber, Value.asNumber, Tree.eval_leaf, Value.toNumber,
    String.toList_ofList, exact]

/-- A number that cannot be read in one piece is the value of its written form between quotes. -/
theorem rereads_number (legible : v.Legible spacing) (writes : v.Writes) (number : n ≠ .nan)
    (exact : Numeral.read (Numeral.write n) = n) (admits : spacing.Admits n) :
    (Grammar.ofVocabulary v spacing).Rereads (Value.numberLiteral n) (.leaf (.number n)) := by
  unfold Value.numberLiteral
  split
  · next zero =>
    rw [Bool.and_eq_true] at zero
    rw [Binary64.eq_zero_of_isZero zero.1 zero.2, Numeral.read_write_negative_zero] at exact
    cases exact
  split
  · exact ⟨.leaf (.number n), trivial,
      fun behind delimits => reads_write legible number exact admits delimits, fun _ => rfl⟩
  · exact rereads_quoted_number legible writes exact

end Grammar

end Formula
