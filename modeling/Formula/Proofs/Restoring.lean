import Formula.Proofs.Pointed
import Formula.Tree.Render

/-!
# Restoring values

The literal of a computed value is read again as that value. Numbers with a point are the exception: they
are read as digits around an operator, which is tighter than all others.
-/

namespace Formula

open Nat (toDigits)

/-! ## Signs and points of written numbers -/

namespace Numeral

theorem write_neg {n : Binary64} (number : n ≠ .nan) (unsigned : n.isNegative = false)
    (some : n.isZero = false) : write n.neg = '-' :: write n := by
  cases n with
  | nan => exact absurd rfl number
  | infinity negative =>
    obtain rfl : negative = false := unsigned
    rfl
  | finite negative units representable =>
    obtain rfl : negative = false := unsigned
    have positive : units ≠ 0 := beq_eq_false_iff_ne.mp some
    rw [Binary64.neg, write, write, Layout.chars, Layout.chars, if_neg positive, if_neg positive]
    rfl

/-- The sign of a number is written before the number without it. -/
theorem exists_unsigned {n : Binary64} (number : n ≠ .nan) (zero : n ≠ .zero true) :
    ∃ negative, ∃ unsigned : Binary64, unsigned ≠ .nan ∧ unsigned.isNegative = false ∧
      n = (if negative then unsigned.neg else unsigned) ∧
        write n = Layout.signed negative (write unsigned) := by
  cases sign : n.isNegative with
  | false => exact ⟨false, n, number, sign, rfl, rfl⟩
  | true =>
    have turned : n.neg ≠ .nan ∧ n.neg.isNegative = false ∧ n.neg.isZero = false ∧ n.neg.neg = n := by
      cases n with
      | nan => exact absurd rfl number
      | infinity negative =>
        obtain rfl : negative = true := sign
        exact ⟨nofun, rfl, rfl, rfl⟩
      | finite negative units representable =>
        obtain rfl : negative = true := sign
        refine ⟨nofun, rfl, beq_eq_false_iff_ne.mpr ?_, rfl⟩
        rintro rfl
        exact zero rfl
    obtain ⟨number', unsigned, some, back⟩ := turned
    have written := write_neg number' unsigned some
    rw [back] at written
    exact ⟨true, n.neg, number', unsigned, back.symm, written⟩

/-- A number without a sign and an exponent is written by digits, by its name, or with a point behind the
digits of a whole number. -/
theorem write_cases {n : Binary64} (number : n ≠ .nan) (unsigned : n.isNegative = false)
    (plain : 'e' ∉ write n) :
    (∀ c ∈ write n, c.isDigit) ∨ write n = "Infinity".toList ∨
      ∃ (whole : Nat) (fraction : List Char), whole < 2 ^ 53 ∧ fraction ≠ [] ∧
        (∀ c ∈ fraction, c.isDigit) ∧ write n = toDigits 10 whole ++ '.' :: fraction := by
  cases n with
  | nan => exact absurd rfl number
  | infinity negative =>
    obtain rfl : negative = false := unsigned
    exact Or.inr (Or.inl rfl)
  | finite negative units representable =>
    obtain rfl : negative = false := unsigned
    by_cases zero : units = 0
    · subst zero
      exact Or.inl (List.all_eq_true.mp rfl)
    have text : write (.finite false units representable) =
        layout.magnitude (.shortest layout.tie units) := by
      rw [write, Layout.chars, if_neg zero]
      rfl
    rw [text] at plain ⊢
    rcases magnitude_cases representable zero with digits | exponent | pointed
    · exact Or.inl digits
    · exact absurd exponent plain
    · exact Or.inr (Or.inr pointed)

end Numeral

namespace Value

theorem not_mem_write_of_isPlain {n : Binary64} (plain : isPlain n) : 'e' ∉ Numeral.write n := by
  cases n with
  | nan => cases plain
  | infinity negative =>
    cases negative <;> decide
  | finite negative units representable =>
    intro member
    have behind := mem_dropWhile member (p := (· == '-')) (by decide)
    have digit := List.all_eq_true.mp plain 'e' behind
    cases digit

theorem not_mem_of_isPlain {n : Binary64} (plain : isPlain n) {negative : Bool} {text : List Char}
    (written : Numeral.write n = Layout.signed negative text) : 'e' ∉ text := by
  intro member
  refine not_mem_write_of_isPlain plain ?_
  rw [written]
  cases negative
  · exact member
  · exact List.mem_cons_of_mem _ member

/-- Whether the literal of a value is a number with a point. -/
def isPointed : Value → Bool
  | .number n => isPlain n && (Numeral.write n).contains '.'
  | _ => false

/-- A literal with a point consists of digits around it, behind a sign if there is one. -/
theorem exists_point {n : Binary64} (pointed : (Value.number n).isPointed) :
    numberLiteral n = Numeral.write n ∧ ∃ negative, ∃ (whole : Nat) (fraction : List Char), fraction ≠ [] ∧
      (∀ c ∈ fraction, c.isDigit) ∧
        Numeral.write n = Layout.signed negative (toDigits 10 whole ++ '.' :: fraction) := by
  rw [isPointed, Bool.and_eq_true, List.contains_iff_mem] at pointed
  obtain ⟨plain, inside⟩ := pointed
  have number : n ≠ .nan := by
    rintro rfl
    cases plain
  have zero : n ≠ .zero true := by
    rintro rfl
    exact absurd inside (by decide)
  obtain ⟨negative, m, number', unsigned, _, written⟩ := Numeral.exists_unsigned number zero
  have inside' : '.' ∈ Numeral.write m := by
    rw [written, Layout.signed] at inside
    split at inside
    · exact (List.mem_cons.mp inside).resolve_left (by decide)
    · exact inside
  have literal : numberLiteral n = Numeral.write n := by
    have signed : ¬(n.isZero && n.isNegative) := by
      rw [Bool.and_eq_true]
      exact fun same => zero (Binary64.eq_zero_of_isZero same.1 same.2)
    rw [numberLiteral, if_neg signed, if_pos plain]
  refine ⟨literal, negative, ?_⟩
  rcases Numeral.write_cases number' unsigned (not_mem_of_isPlain plain written) with
    digits | name | ⟨whole, fraction, _, some, are, text⟩
  · exact absurd (digits '.' inside') (by decide)
  · rw [name] at inside'
    exact absurd inside' (by decide)
  · exact ⟨whole, fraction, some, are, by rw [written, text]⟩

theorem wholePart_ofNat {n : Nat} (small : n < 2 ^ 53) (negative : Bool) :
    (Value.number (if negative then (Binary64.ofNat n).neg else .ofNat n)).wholePart =
      Layout.signed negative (toDigits 10 n) := by
  have written := Numeral.write_ofNat small
  have value := Binary64.ofNat_eq small.le
  have unsigned : (Binary64.ofNat n).isNegative = false := by rw [value]; rfl
  have number : Binary64.ofNat n ≠ .nan := by rw [value]; exact nofun
  by_cases zero : n = 0
  · have exact : Binary64.ofNat n = .zero false := by
      rw [Binary64.ofNat, zero, Nat.zero_mul]
      exact Binary64.round_of_small (by omega) false
    rw [exact] at written ⊢
    cases negative with
    | false =>
      rw [if_neg Bool.false_ne_true, wholePart, if_neg (by decide), written]
      rfl
    | true =>
      rw [if_pos rfl, wholePart, if_pos (by decide), zero]
      rfl
  · have positive := Binary64.mul_unitsPerOne_ne_zero zero
    have some : (Binary64.ofNat n).isZero = false := by
      rw [value, Binary64.isZero, beq_eq_false_iff_ne]
      exact positive
    have turned : (Binary64.ofNat n).neg.isZero = false := by
      rw [value, Binary64.neg, Binary64.isZero, beq_eq_false_iff_ne]
      exact positive
    cases negative with
    | false =>
      rw [if_neg Bool.false_ne_true, wholePart, some, Bool.false_and, if_neg Bool.false_ne_true, written]
      rfl
    | true =>
      rw [if_pos rfl, wholePart, turned, Bool.false_and, if_neg Bool.false_ne_true,
        Numeral.write_neg number unsigned some, written]
      rfl

theorem ofOperand_toDigits {n : Nat} (small : n < 2 ^ 53) :
    Value.ofOperand (toDigits 10 n) = .number (.ofNat n) := by
  have written := Numeral.write_ofNat small
  have value := Binary64.ofNat_eq small.le
  have number : Binary64.ofNat n ≠ .nan := by rw [value]; exact nofun
  have positive : Binary64.ofNat n ≠ .zero true := by
    intro same
    have sign := congrArg Binary64.isNegative same
    rw [value] at sign
    cases sign
  have operand := Value.ofOperand_write number (Numeral.read_write number positive)
  rw [written] at operand
  exact operand

@[simp] theorem negated_number (n : Binary64) : (Value.number n).negated = .number n.neg :=
  rfl

/-- The text form of an operand without quotes is the operand. -/
theorem chars_ofOperand {text : List Char} (unquoted : ∀ c ∈ text, isQuote c = false) :
    (ofOperand text).chars = text := by
  rw [ofOperand_of_unquoted unquoted, chars_ofUnquoted]

end Value

/-! ## Rows -/

variable {m : Type → Type} {C : Type}

/-- Whether the tree is not binary, or one of the tightest operators between such trees. -/
def Tree.Tight : Tree m C → Prop
  | .binary _ priority left right => priority = 1 ∧ left.IsAtom ∧ right.IsAtom
  | _ => True

namespace Tree

variable {t : Tree m C} {op : Operator m C} {priority : Nat}

theorem IsAtom.tight (atom : t.IsAtom) : t.Tight := by
  cases t with
  | binary => exact False.elim atom
  | _ => trivial

theorem append_of_atom (atom : t.IsAtom) : t.append op priority = .binary op priority t .hole := by
  cases t with
  | binary => exact False.elim atom
  | _ => rfl

/-- A tight tree is the left operand of any other operator. -/
theorem Tight.append (tight : t.Tight) (loose : 1 < priority) :
    t.append op priority = .binary op priority t .hole := by
  cases t with
  | binary above bound left right => rw [Tree.append, if_neg (by have := tight.1; omega)]
  | _ => rfl

theorem Tight.loose_append (tight : t.Tight) (positive : 1 ≤ priority) : (t.append op priority).Loose 1 := by
  cases t with
  | binary above bound left right =>
    obtain ⟨rfl, _, atom⟩ := tight
    rw [Tree.append]
    split
    · rw [append_of_atom atom]
      exact ⟨Nat.le_refl 1, positive, trivial⟩
    · exact ⟨positive, trivial⟩
  | _ => exact ⟨positive, trivial⟩

end Tree

namespace Grammar

section

variable {v : Vocabulary m C} {spacing : Spacing} {entry : Entry m C} {piece more behind : List Char}
  {t u : Tree m C}

/-- An operator between two rows of the tightest operators, right behind a bracket. -/
theorem ReadsRow.beside (clear : v.Clear) (stands : (Grammar.ofVocabulary v spacing).Stands entry)
    (first : (Grammar.ofVocabulary v spacing).ReadsRow 1 piece t
      (' ' :: (entry.token ++ ' ' :: (more ++ behind))))
    (loose : (t.append entry.op entry.priority).Loose 1)
    (rest : (Grammar.ofVocabulary v spacing).ReadsRow 1 more u behind) :
    (Grammar.ofVocabulary v spacing).ReadsWithin (piece ++ ' ' :: (entry.token ++ ' ' :: more))
      ((t.append entry.op entry.priority).fill u) behind := by
  intro inside groups position
  have text : piece ++ ' ' :: (entry.token ++ ' ' :: more) ++ behind =
      piece ++ ' ' :: (entry.token ++ ' ' :: (more ++ behind)) := by
    simp only [List.append_assoc, List.cons_append]
  have blankFree := ofVocabulary_avoids (clear.blank ' ' rfl) spacing
  obtain ⟨start, operand⟩ := first.within inside groups position
  obtain ⟨next, operator⟩ := Scan.read_operator clear stands t groups start (more ++ behind)
  obtain ⟨final, others⟩ := rest inside groups (t.append entry.op entry.priority)
    { Scan.startingAt false next with buffer := [' '] } loose ⟨rfl, Or.inr rfl⟩ rfl
  refine ⟨final, ?_⟩
  rw [text, operand, operator, Scan.read_blank blankFree rfl rfl, others]

theorem ReadsRow.point (legible : v.Legible spacing) (free : spacing ≠ .always)
    (member : entry ∈ Entry.table v.binary) (token : entry.token = ['.']) {whole fraction : List Char}
    (some : whole ≠ []) (are : ∀ c ∈ whole, c.isDigit) (some' : fraction ≠ [])
    (are' : ∀ c ∈ fraction, c.isDigit) (delimits : (Grammar.ofVocabulary v spacing).Delimits behind) :
    (Grammar.ofVocabulary v spacing).ReadsRow entry.priority (whole ++ '.' :: fraction)
      (.binary entry.op entry.priority (.leaf (Value.ofOperand whole)) (.leaf (Value.ofOperand fraction)))
      behind := by
  intro inside groups spine s loose fresh unary
  obtain ⟨start, row⟩ := read_point legible free member token some are some' are' delimits inside groups
    spine fresh
  refine ⟨start, ?_⟩
  have atom : (Tree.leaf (Value.ofOperand whole) : Tree m C).IsAtom := trivial
  rw [row, unary, List.reverse_nil, Tree.wrap, List.foldr_nil, Spine.append_fill atom loose, Spine.fill_push]

/-- A minus before digits with a point belongs to the digits before the point. -/
theorem ReadsRow.minus_point (legible : v.Legible spacing) (free : spacing ≠ .always)
    (member : entry ∈ Entry.table v.binary) (token : entry.token = ['.']) {sign : Entry m C}
    (signs : sign ∈ Entry.table v.unary) (minus : sign.token = ['-']) {whole fraction : List Char}
    (some : whole ≠ []) (are : ∀ c ∈ whole, c.isDigit) (some' : fraction ≠ [])
    (are' : ∀ c ∈ fraction, c.isDigit) (delimits : (Grammar.ofVocabulary v spacing).Delimits behind) :
    (Grammar.ofVocabulary v spacing).ReadsRow entry.priority ('-' :: whole ++ '.' :: fraction)
      (.binary entry.op entry.priority (.unary sign.op (.leaf (Value.ofOperand whole)))
        (.leaf (Value.ofOperand fraction))) behind := by
  intro inside groups spine s loose fresh unary
  have later : (⟨s.closed, sign.op :: s.unary, s.start + byteLength ('-' :: s.buffer), []⟩ :
      Scan m C).Fresh := ⟨fresh.closed, Or.inl rfl⟩
  obtain ⟨start, row⟩ := read_point legible free member token some are some' are' delimits inside groups
    spine later
  refine ⟨start, ?_⟩
  have atom : (Tree.unary sign.op (.leaf (Value.ofOperand whole)) : Tree m C).IsAtom := trivial
  have wrapped : Tree.wrap (sign.op :: s.unary).reverse (.leaf (Value.ofOperand whole)) =
      Tree.unary sign.op (.leaf (Value.ofOperand whole)) := by
    rw [unary]
    rfl
  rw [wrapped, Spine.append_fill atom loose, Spine.fill_push] at row
  rw [List.cons_append, List.cons_append, legible.read_minus free signs minus fresh, row]

end

/-- Whether a piece of text is read as a row of the tightest operators before anything that can stand behind
it, and that row has the values of the tree. -/
def RereadsRow (g : Grammar Id C) (piece : List Char) (t : Tree Id C) : Prop :=
  ∃ u : Tree Id C, u.Tight ∧ (∀ behind, g.Delimits behind → g.ReadsRow 1 piece u behind) ∧
    ∀ context, u.eval context = t.eval context

/-- Whether a piece of text is read as a row with the values of the tree, and in one piece unless it has a
point. -/
structure RereadsApart (g : Grammar Id C) (pointed : Bool) (piece : List Char) (t : Tree Id C) : Prop where
  whole : pointed = false → g.Rereads piece t
  row : g.RereadsRow piece t

section

variable {g : Grammar Id C} {piece : List Char} {t : Tree Id C}

theorem Rereads.row (rereads : g.Rereads piece t) : g.RereadsRow piece t := by
  obtain ⟨u, atom, reads, value⟩ := rereads
  exact ⟨u, atom.tight, fun behind delimits => (reads behind delimits).row, value⟩

theorem Rereads.apart (rereads : g.Rereads piece t) (pointed : Bool) : g.RereadsApart pointed piece t :=
  ⟨fun _ => rereads, rereads.row⟩

end

end Grammar

/-! ## Literals -/

/-- Whether the vocabulary has the operators that the literals of all values are read with. -/
structure Vocabulary.Restores (v : Vocabulary Id C) (host : Host) : Prop extends v.Writes where
  point : ∀ op ∈ v.binary, op.token = "." → ∀ a b context, op.run [a, b] context = a.dot host b
  minus : ∃ op ∈ v.unary, op.token = "-" ∧ ∀ a context, op.run [a] context = a.negated
  json : ∃ op ∈ v.unary, op.token = "JSON" ∧ ∀ a context, op.run [a] context = a.readJson
  constants : ∀ value ∈ [Value.bool false, .bool true, .null, .absent],
    ∃ op ∈ v.constants, op.token.toList = value.chars ∧ ∀ context, op.run [] context = value

theorem Vocabulary.Restores.exists_minus {v : Vocabulary Id C} {host : Host} (restores : v.Restores host) :
    ∃ entry ∈ Entry.table v.unary, entry.token = ['-'] ∧ ∀ a context, entry.op.run [a] context = a.negated := by
  obtain ⟨op, listed, token, negated⟩ := restores.minus
  obtain ⟨entry, member, rfl, spelling⟩ := Entry.exists_of_mem listed
  refine ⟨entry, member, ?_, negated⟩
  rw [spelling, token]
  rfl

namespace Grammar

variable {v : Vocabulary Id C} {spacing : Spacing} {n : Binary64} {host : Host} {piece : List Char}

/-- A minus turns the value of a number that is read. -/
theorem Rereads.minus (legible : v.Legible spacing) (restores : v.Restores host) (free : spacing ≠ .always)
    (rereads : (Grammar.ofVocabulary v spacing).Rereads piece (.leaf (.number n))) :
    (Grammar.ofVocabulary v spacing).Rereads ('-' :: piece) (.leaf (.number n.neg)) := by
  obtain ⟨entry, member, minus, negated⟩ := restores.exists_minus
  obtain ⟨u, atom, reads, value⟩ := rereads
  refine ⟨.unary entry.op u, trivial, fun behind delimits => ?_, fun context => ?_⟩
  · exact (reads behind delimits).minus legible free member minus
  · rw [Tree.eval_unary, value, Tree.eval_leaf, negated, Value.negated_number, Tree.eval_leaf]

/-- The point joins the digits on both sides of it to a number. -/
theorem run_point (restores : v.Restores host) {op : Operator Id C} (listed : op ∈ v.binary)
    (name : op.token = ".") {whole : Nat} (small : whole < 2 ^ 53) {fraction : List Char}
    (are : ∀ c ∈ fraction, c.isDigit) (negative : Bool) (number : n ≠ .nan)
    (exact : Numeral.read (Layout.signed negative (toDigits 10 whole ++ '.' :: fraction)) = n)
    (context : Option C) :
    op.run [.number (if negative then (Binary64.ofNat whole).neg else .ofNat whole), Value.ofOperand fraction]
      context = Value.number n := by
  have unquoted : ∀ c ∈ fraction, isQuote c = false := fun c inside => isQuote_of_isDigit (are c inside)
  have text : Layout.signed negative (toDigits 10 whole) ++ '.' :: fraction =
      Layout.signed negative (toDigits 10 whole ++ '.' :: fraction) := by
    cases negative <;> rfl
  rw [restores.point op listed name, Value.dot, Value.wholePart_ofNat small, Value.chars_ofOperand unquoted,
    text, exact, Binary64.isNaN_eq_false number]
  rfl

theorem rereadsRow_point (legible : v.Legible spacing) (restores : v.Restores host)
    (free : spacing ≠ .always) {whole : Nat} (small : whole < 2 ^ 53) {fraction : List Char}
    (some : fraction ≠ []) (are : ∀ c ∈ fraction, c.isDigit) (negative : Bool) (number : n ≠ .nan)
    (exact : Numeral.read (Layout.signed negative (toDigits 10 whole ++ '.' :: fraction)) = n) :
    (Grammar.ofVocabulary v spacing).RereadsRow
      (Layout.signed negative (toDigits 10 whole ++ '.' :: fraction)) (.leaf (.number n)) := by
  obtain ⟨entry, member, token, name, tightest⟩ := legible.exists_point
  have digits := isDigit_toDigits whole
  have joined := run_point restores (Entry.op_mem_of_mem_table member) name small are negative number exact
  cases negative with
  | false =>
    refine ⟨.binary entry.op 1 (.leaf (Value.ofOperand (toDigits 10 whole)))
      (.leaf (Value.ofOperand fraction)), ⟨rfl, trivial, trivial⟩, fun behind delimits => ?_, fun context => ?_⟩
    · have row := ReadsRow.point legible free member token Nat.toDigits_ne_nil digits some are delimits
      rw [tightest] at row
      exact row
    · have value := joined context
      rw [if_neg Bool.false_ne_true] at value
      rw [Tree.eval_binary, Tree.eval_leaf, Tree.eval_leaf, Value.ofOperand_toDigits small, value,
        Tree.eval_leaf]
  | true =>
    obtain ⟨sign, signs, symbol, negated⟩ := restores.exists_minus
    refine ⟨.binary entry.op 1 (.unary sign.op (.leaf (Value.ofOperand (toDigits 10 whole))))
      (.leaf (Value.ofOperand fraction)), ⟨rfl, trivial, trivial⟩, fun behind delimits => ?_, fun context => ?_⟩
    · have row := ReadsRow.minus_point legible free member token signs symbol Nat.toDigits_ne_nil digits some
        are delimits
      rw [tightest] at row
      exact row
    · have value := joined context
      rw [if_pos rfl] at value
      rw [Tree.eval_binary, Tree.eval_unary, Tree.eval_leaf, Tree.eval_leaf, Value.ofOperand_toDigits small,
        negated, Value.negated_number, value, Tree.eval_leaf]

/-- Behind a unary operator digits with a point are read too, but the operator gets those before the point
alone. -/
theorem exists_rereads_below (legible : v.Legible spacing) (restores : v.Restores host)
    (free : spacing ≠ .always) {prefixed : Entry Id C} (listed : prefixed ∈ Entry.table v.unary)
    (named : prefixed.token ≠ []) {whole fraction : List Char} (some : whole ≠ [])
    (are : ∀ c ∈ whole, c.isDigit) (some' : fraction ≠ []) (are' : ∀ c ∈ fraction, c.isDigit) (negative : Bool) :
    ∃ w, (Grammar.ofVocabulary v spacing).Rereads
      ('(' :: (prefixed.token ++ ' ' :: Layout.signed negative (whole ++ '.' :: fraction) ++ [')'])) w := by
  obtain ⟨entry, member, token, _⟩ := legible.exists_point
  obtain ⟨sign, signs, minus, _⟩ := restores.exists_minus
  have opening := ofVocabulary_avoids legible.clear.opening spacing
  have closing := ofVocabulary_avoids legible.clear.closing spacing
  let operand : Tree Id C := .leaf (Value.ofOperand whole)
  refine ⟨.binary entry.op entry.priority
      (.unary prefixed.op (if negative then .unary sign.op operand else operand))
      (.leaf (Value.ofOperand fraction)),
    .enclosed opening closing (fun behind inside groups start => ?_) fun _ => rfl⟩
  have delimits : (Grammar.ofVocabulary v spacing).Delimits (')' :: behind) := .closing behind
  obtain ⟨next, operator⟩ := legible.read_unary listed named
    (Layout.signed negative (whole ++ '.' :: fraction) ++ ')' :: behind) (Scan.fresh_startingAt start)
    (a := ⟨groups, .awaiting .hole⟩)
  have fresh : (⟨false, prefixed.op :: (Scan.startingAt false start : Scan Id C).unary, next, [' ']⟩ :
      Scan Id C).Fresh := ⟨rfl, Or.inr rfl⟩
  rw [List.append_assoc, List.cons_append, operator]
  cases negative with
  | false => exact read_point legible free member token some are some' are' delimits inside groups .hole fresh
  | true =>
    have text : Layout.signed true (whole ++ '.' :: fraction) ++ ')' :: behind =
        '-' :: (whole ++ '.' :: fraction ++ ')' :: behind) := rfl
    rw [text, legible.read_minus free signs minus fresh]
    exact read_point legible free member token some are some' are' delimits inside groups .hole ⟨rfl, Or.inl rfl⟩

/-- A number without a sign is read in one piece, unless it has a point. -/
theorem rereads_unsigned (legible : v.Legible .wordsOnly) (number : n ≠ .nan) (unsigned : n.isNegative = false)
    (admits : Spacing.wordsOnly.Admits n) :
    (Grammar.ofVocabulary v .wordsOnly).Rereads (Numeral.write n) (.leaf (.number n)) := by
  have positive : n ≠ .zero true := by
    rintro rfl
    cases unsigned
  have exact := Numeral.read_write number positive
  exact ⟨.leaf (.number n), trivial,
    fun behind delimits => reads_write legible number exact admits delimits, fun _ => rfl⟩

/-- The negative zero has no text of its own: it is the other zero behind a minus. -/
theorem rereads_negative_zero (legible : v.Legible .wordsOnly) (restores : v.Restores host) :
    (Grammar.ofVocabulary v .wordsOnly).Rereads "(- 0)".toList (.leaf (.number (.zero true))) := by
  obtain ⟨entry, member, minus, negated⟩ := restores.exists_minus
  have zero := rereads_unsigned legible (n := .zero false) nofun rfl
    (Or.inr (Or.inl (List.all_eq_true.mp rfl)))
  have rereads := Rereads.unary legible member (by simp [minus]) zero
  rw [minus] at rereads
  refine rereads.congr fun context => ?_
  rw [Tree.eval_unary, Tree.eval_leaf, Tree.eval_leaf, negated, Value.negated_number]
  rfl

/-- A number without an exponent is read again. Its sign is a minus, which turns the value of what is
written without it. -/
theorem rereads_plain (legible : v.Legible .wordsOnly) (restores : v.Restores host) (zero : n ≠ .zero true)
    (plain : Value.isPlain n) :
    (Grammar.ofVocabulary v .wordsOnly).RereadsApart (Value.number n).isPointed (Numeral.write n)
      (.leaf (.number n)) := by
  have free : Spacing.wordsOnly ≠ .always := nofun
  have number : n ≠ .nan := by
    rintro rfl
    cases plain
  have exact := Numeral.read_write number zero
  obtain ⟨negative, m, number', unsigned, value, written⟩ := Numeral.exists_unsigned number zero
  have plain' := Value.not_mem_of_isPlain plain written
  have sign : (Grammar.ofVocabulary v .wordsOnly).Rereads (Numeral.write m) (.leaf (.number m)) →
      (Grammar.ofVocabulary v .wordsOnly).Rereads (Numeral.write n) (.leaf (.number n)) := by
    intro rereads
    rw [written, value]
    cases negative
    · exact rereads
    · exact rereads.minus legible restores free
  rcases Numeral.write_cases number' unsigned plain' with digits | name | pointed
  · exact (sign (rereads_unsigned legible number' unsigned (Or.inr (Or.inl digits)))).apart _
  · exact (sign (rereads_unsigned legible number' unsigned (Or.inr (Or.inr ⟨name, rfl⟩)))).apart _
  · -- The sign cannot be taken off here: it belongs to the digits before the point.
    obtain ⟨whole, fraction, small, some, are, text⟩ := pointed
    rw [written, text] at exact
    have row := rereadsRow_point legible restores free small some are negative number exact
    rw [← text, ← written] at row
    refine ⟨fun whole => absurd whole ?_, row⟩
    have inside : '.' ∈ Numeral.write n := by
      rw [written, text]
      cases negative <;> simp [Layout.signed]
    simp [Value.isPointed, plain, inside]

/-- The literal of a number is read as that number, in one piece unless it has a point. -/
theorem rereads_numberLiteral (legible : v.Legible .wordsOnly) (restores : v.Restores host) (n : Binary64) :
    (Grammar.ofVocabulary v .wordsOnly).RereadsApart (Value.number n).isPointed (Value.numberLiteral n)
      (.leaf (.number n)) := by
  unfold Value.numberLiteral
  split
  · next zero =>
    rw [Bool.and_eq_true] at zero
    obtain rfl : n = .zero true := Binary64.eq_zero_of_isZero zero.1 zero.2
    exact (rereads_negative_zero legible restores).apart _
  next signed =>
  have zero : n ≠ .zero true := by
    rintro rfl
    exact signed rfl
  split
  · next plain => exact rereads_plain legible restores zero plain
  · have exact : Numeral.read (Numeral.write n) = n := by
      by_cases number : n = .nan
      · rw [number, Numeral.read_write_nan]
      · exact Numeral.read_write number zero
    exact (rereads_quoted_number legible restores.toWrites exact).apart _

theorem rereads_constant (legible : v.Legible .wordsOnly) (restores : v.Restores host) {value : Value}
    (listed : value ∈ [Value.bool false, .bool true, .null, .absent]) :
    (Grammar.ofVocabulary v .wordsOnly).Rereads value.chars (.leaf value) := by
  obtain ⟨op, constant, token, run⟩ := restores.constants value listed
  obtain ⟨entry, member, rfl, spelling⟩ := Entry.exists_of_mem constant
  have names : [Value.bool false, .bool true, .null, .absent].map Value.chars =
      ["false", "true", "null", "undefined"].map String.toList := rfl
  have named : ∀ name ∈ ["false", "true", "null", "undefined"].map String.toList, name ≠ [] := by decide
  have some : entry.token ≠ [] := by
    rw [spelling, token]
    refine named _ ?_
    rw [← names]
    exact List.mem_map_of_mem listed
  rw [← token, ← spelling]
  refine ⟨.constant entry.op, trivial, fun behind delimits => ?_, run⟩
  exact legible.reads_constant member some nofun delimits.boundary

/-- The literal of a list or a map is read as what its JSON text is read as. -/
theorem rereads_json (legible : v.Legible .wordsOnly) (restores : v.Restores host) (json : Json) :
    (Grammar.ofVocabulary v .wordsOnly).Rereads ("(JSON ".toList ++ Value.quote json.chars ++ [')'])
      (.leaf (Value.string (String.ofList json.chars)).readJson) := by
  obtain ⟨op, listed, token, run⟩ := restores.json
  obtain ⟨entry, member, rfl, spelling⟩ := Entry.exists_of_mem listed
  have text : (Grammar.ofVocabulary v .wordsOnly).Rereads (Value.quote (String.ofList json.chars).toList)
      (.leaf (.string (String.ofList json.chars))) := rereads_quote legible restores.toWrites _
  rw [String.toList_ofList] at text
  have rereads := Rereads.unary legible member (by simp [spelling, token]) text
  rw [spelling, token] at rereads
  refine rereads.congr fun context => ?_
  rw [Tree.eval_unary, Tree.eval_leaf, run, Tree.eval_leaf]

end Grammar

/-- Whether a value is no callable. No literal stands for a callable. -/
def Value.isData : Value → Bool
  | .callable _ => false
  | _ => true

/-- Whether the JSON text of a list or a map is read as that value. It is not if the value contains what has
no JSON form, or a number that is read from JSON text as another one. -/
def Value.Restorable (v : Value) : Prop :=
  match v with
  | .list _ | .map _ =>
    ∀ json, v.toJson? = some json → (Value.string (String.ofList json.chars)).readJson = v
  | _ => True

/-- A literal is read again, in one piece unless it is a number with a point. It is read as another value only
if that is a list or a map. -/
theorem Grammar.rereads_value {v : Vocabulary Id C} {host : Host} (legible : v.Legible .wordsOnly)
    (restores : v.Restores host) {value : Value} (data : value.isData) :
    ∃ found : Value,
      (Grammar.ofVocabulary v .wordsOnly).RereadsApart value.isPointed value.literal (.leaf found) ∧
        (value.Restorable → found = value) := by
  cases value with
  | absent | null => exact ⟨_, (rereads_constant legible restores (by simp)).apart _, fun _ => rfl⟩
  | bool b =>
    have listed : Value.bool b ∈ [Value.bool false, .bool true, .null, .absent] := by cases b <;> simp
    have literal : (Value.bool b).literal = (Value.bool b).chars := by cases b <;> rfl
    rw [literal]
    exact ⟨_, (rereads_constant legible restores listed).apart _, fun _ => rfl⟩
  | number n => exact ⟨_, rereads_numberLiteral legible restores n, fun _ => rfl⟩
  | string s => exact ⟨_, (rereads_quote legible restores.toWrites s).apart _, fun _ => rfl⟩
  | list items =>
    have rereads := rereads_json legible restores (.array (Value.itemsToJson items))
    exact ⟨_, rereads.apart _, fun restorable => restorable _ rfl⟩
  | map entries =>
    have rereads := rereads_json legible restores (.object (Value.entriesToJson entries))
    exact ⟨_, rereads.apart _, fun restorable => restorable _ rfl⟩
  | callable f => cases data

end Formula
