import Formula.Json.Writer
import Formula.Json.Reader
import Formula.Proofs.Fractions

/-!
# Tokens of JSON text

Written JSON has the tokens that it was written of. Strings come back whatever is escaped in them, and numbers
if their text is read as the number.
-/

/-! ## Whole numbers -/

namespace Formula.Binary64

theorem exists_of_toInt? {n : Binary64} {i : Int} (whole : n.toInt? = some i) :
    ∃ (negative : Bool) (k : Nat) (representable : Representable (k * unitsPerOne)),
      n = finite negative (k * unitsPerOne) representable ∧ i = signed negative k := by
  cases n with
  | nan | infinity => cases whole
  | finite negative units representable =>
    obtain ⟨divides, same⟩ := Option.ite_none_right_eq_some.mp whole
    have parts := Nat.div_mul_cancel (Nat.dvd_of_mod_eq_zero divides)
    generalize units / unitsPerOne = k at parts same
    subst parts
    exact ⟨negative, k, representable, rfl, (Option.some.inj same).symm⟩

theorem natAbs_signed (negative : Bool) (k : Nat) : (signed negative k).natAbs = k := by
  cases negative
  · exact Int.natAbs_natCast k
  · exact (Int.natAbs_neg k).trans (Int.natAbs_natCast k)

theorem signed_neg_iff {k : Nat} (some : k ≠ 0) (negative : Bool) : decide (signed negative k < 0) = negative := by
  cases negative
  · exact decide_eq_false (Int.not_lt.mpr (Int.natCast_nonneg k))
  · exact decide_eq_true (Int.neg_neg_of_pos (Int.natCast_pos.mpr (Nat.pos_of_ne_zero some)))

end Formula.Binary64

namespace Formula.Json

open Nat (toDigits ofDigitChars)

variable {text unsigned rest : List Char} {n : Binary64} {c : Char}

/-! ## Numbers -/

theorem isWordChar_of_isDigit (digit : c.isDigit) : isWordChar c := by
  simp [isWordChar, Char.isAlphanum, digit]

theorem isWordChar_of_exponent? {exponent : Int} (ends : Numeral.exponent? text = some exponent)
    (member : c ∈ text) : isWordChar c := by
  have exponent : Numeral.IsExponent text := by
    rw [← Numeral.exponent?_isSome_iff, ends]
    rfl
  rcases exponent.mem_cases member with digit | mark
  · exact isWordChar_of_isDigit digit
  · simp only [List.mem_cons, List.not_mem_nil, or_false] at mark
    rcases mark with rfl | rfl | rfl | rfl <;> rfl

theorem isWordChar_unsigned {fraction : List Char} {exponent : Int}
    (pointed : fraction? (unsigned.dropWhile Char.isDigit) = some (fraction, rest))
    (ends : Numeral.exponent? rest = some exponent) (member : c ∈ unsigned) : isWordChar c := by
  rw [← List.takeWhile_append_dropWhile (p := Char.isDigit) (l := unsigned), List.mem_append] at member
  rcases member with whole | behind
  · exact isWordChar_of_isDigit (List.mem_takeWhile_imp whole)
  · generalize unsigned.dropWhile Char.isDigit = text at pointed behind
    unfold fraction? at pointed
    split at pointed
    · next digits =>
      dsimp only at pointed
      split at pointed
      · cases pointed
      · cases pointed
        rw [← List.takeWhile_append_dropWhile (p := Char.isDigit) (l := digits)] at behind
        simp only [List.mem_cons, List.mem_append] at behind
        rcases behind with rfl | digit | last
        · rfl
        · exact isWordChar_of_isDigit (List.mem_takeWhile_imp digit)
        · exact isWordChar_of_exponent? ends last
    · cases pointed
      exact isWordChar_of_exponent? ends behind

/-- The number that a text without a sign writes. -/
def magnitude? (unsigned : List Char) : Option Binary64 :=
  let whole := unsigned.takeWhile Char.isDigit
  if isWhole whole then
    (fraction? (unsigned.dropWhile Char.isDigit)).bind fun (fraction, rest) =>
      (Numeral.exponent? rest).bind fun exponent =>
        let (high, wholeLeft) := gather 0 whole
        let (significand, fractionLeft) := gather high fraction
        scale? (.ofNat significand) (exponent + (wholeLeft.length + fractionLeft.length - fraction.length))
  else none

theorem readNumber?_minus (unsigned : List Char) :
    readNumber? ('-' :: unsigned) = (magnitude? unsigned).map Binary64.neg := by
  unfold readNumber? magnitude?
  simp only [Option.bind_eq_bind]
  cases isWhole (unsigned.takeWhile Char.isDigit) with
  | false => rfl
  | true =>
    simp only [Bool.not_true, Bool.false_eq_true, if_false, if_true, Option.map_eq_bind, Option.bind_assoc,
      Function.comp_def]
    rfl

theorem readNumber?_unsigned (plain : ∀ rest, text ≠ '-' :: rest) : readNumber? text = magnitude? text := by
  unfold readNumber? magnitude?
  simp only [Option.bind_eq_bind]
  cases isWhole (text.takeWhile Char.isDigit) with
  | false => rfl
  | true =>
    simp only [Bool.not_true, Bool.false_eq_true, if_false, if_true, Option.pure_def, Option.bind_fun_some]

theorem isWordChar_of_magnitude? (reads : magnitude? text = some n) : ∀ c ∈ text, isWordChar c := by
  intro c member
  unfold magnitude? at reads
  dsimp only at reads
  split at reads
  · obtain ⟨⟨fraction, rest⟩, pointed, reads⟩ := Option.bind_eq_some_iff.mp reads
    obtain ⟨exponent, ends, _⟩ := Option.bind_eq_some_iff.mp reads
    exact isWordChar_unsigned pointed ends member
  · cases reads

/-- What is read as a number is a word. -/
theorem isWordChar_of_readNumber? (reads : readNumber? text = some n) : ∀ c ∈ text, isWordChar c := by
  by_cases signed : ∃ rest, text = '-' :: rest
  · obtain ⟨rest, rfl⟩ := signed
    rw [readNumber?_minus] at reads
    obtain ⟨magnitude, reads, _⟩ := Option.map_eq_some_iff.mp reads
    exact List.forall_mem_cons.mpr ⟨rfl, isWordChar_of_magnitude? reads⟩
  · rw [readNumber?_unsigned fun rest same => signed ⟨rest, same⟩] at reads
    exact isWordChar_of_magnitude? reads

theorem wordToken?_of_readNumber? (reads : readNumber? text = some n) : wordToken? text = some (.number n) := by
  have unread : ∀ word, readNumber? word = none → text ≠ word := by
    rintro word none rfl
    rw [none] at reads
    cases reads
  unfold wordToken?
  rw [if_neg (unread _ rfl), if_neg (unread _ rfl), if_neg (unread _ rfl), reads]
  rfl

/-! ## Whole numbers -/

theorem exists_toDigits_cons {k : Nat} (some : k ≠ 0) : ∃ c rest, toDigits 10 k = c :: rest ∧ c ≠ '0' := by
  induction k using Nat.strongRecOn with
  | ind k ih =>
    by_cases small : k < 10
    · have digits : ∀ d < 10, d ≠ 0 → Nat.digitChar d ≠ '0' := by decide
      exact ⟨_, [], Nat.toDigits_of_lt_base small, digits k small some⟩
    · obtain ⟨c, rest, first, other⟩ := ih (k / 10) (by omega) (by omega)
      rw [Nat.toDigits_of_base_le (by omega) (by omega), first]
      exact ⟨c, _, rfl, other⟩

theorem isWhole_toDigits (k : Nat) : isWhole (toDigits 10 k) := by
  by_cases zero : k = 0
  · rw [zero]
    rfl
  · obtain ⟨c, rest, first, other⟩ := exists_toDigits_cons zero
    rw [first]
    unfold isWhole
    split
    · next empty => cases empty
    · rfl
    · next same =>
      cases same
      simpa using other

theorem le_ofDigitChars (digits : List Char) (start : Nat) : start ≤ ofDigitChars 10 digits start := by
  induction digits generalizing start with
  | nil => rfl
  | cons c rest ih =>
    rw [Nat.ofDigitChars_cons]
    exact le_trans (by omega) (ih _)

theorem gather_cons (start : Nat) (c : Char) (rest : List Char) :
    gather start (c :: rest) =
      if 10 * start + (c.toNat - '0'.toNat) < 2 ^ 64 then gather (10 * start + (c.toNat - '0'.toNat)) rest
      else (start, c :: rest) :=
  rfl

/-- Digits of at most 64 bits are all gathered. -/
theorem gather_of_lt {digits : List Char} {start : Nat} (small : ofDigitChars 10 digits start < 2 ^ 64) :
    gather start digits = (ofDigitChars 10 digits start, []) := by
  induction digits generalizing start with
  | nil => rfl
  | cons c rest ih =>
    rw [Nat.ofDigitChars_cons] at small ⊢
    have next := le_ofDigitChars rest (10 * start + (c.toNat - '0'.toNat))
    rw [gather_cons, if_pos (by omega), ih small]

theorem unitsPerOne_pos : 0 < Binary64.unitsPerOne := by
  have some := Binary64.mul_unitsPerOne_ne_zero Nat.one_ne_zero
  rw [Nat.one_mul] at some
  exact Nat.pos_of_ne_zero some

theorem mul_powerOfTen_zero {k : Nat} (small : k < 2 ^ 53) :
    (Binary64.ofNat k).mul (powerOfTen 0) = .ofNat k := by
  have one : powerOfTen 0 = .ofNat 1 := Decimal.toBinary64_whole 1
  have exact : ∀ den, 0 < den →
      Binary64.round false (k * den * (1 * den)) den = .round false (k * den) 1 := by
    intro den positive
    refine Binary64.round_congr positive (by omega) ?_ false
    rw [Nat.one_mul, Nat.mul_one]
  rw [one, Binary64.ofNat_eq small.le, Binary64.ofNat_eq (by omega : 1 ≤ 2 ^ 53), Binary64.mul,
    ← Binary64.ofNat_eq small.le]
  exact exact Binary64.unitsPerOne unitsPerOne_pos

theorem magnitude?_toDigits {k : Nat} (small : k < 2 ^ 53) : magnitude? (toDigits 10 k) = some (.ofNat k) := by
  have ending : ([] : List Char).head?.any Char.isDigit = false := rfl
  obtain ⟨whole, behind⟩ := Numeral.takeWhile_isDigit (isDigit_toDigits k) ending
  rw [List.append_nil] at whole behind
  have gathered : gather 0 (toDigits 10 k) = (k, []) := by
    rw [gather_of_lt (by rw [Nat.ofDigitChars_ten_toDigits]; omega), Nat.ofDigitChars_ten_toDigits]
  have finite : (Binary64.ofNat k).isFinite := by
    rw [Binary64.ofNat_eq small.le]
    rfl
  have scaled : scale? (.ofNat k) (Int.ofNat 0) = some (.ofNat k) := by
    unfold scale?
    dsimp only
    rw [mul_powerOfTen_zero small, if_pos (by omega), if_pos finite]
  have shift : (0 : Int) + (([] : List Char).length + ([] : List Char).length - ([] : List Char).length) =
      Int.ofNat 0 := rfl
  have plain : fraction? [] = some ([], []) := rfl
  have ends : Numeral.exponent? [] = some 0 := rfl
  have rest : gather k [] = (k, []) := rfl
  unfold magnitude?
  dsimp only
  rw [whole, behind, if_pos (isWhole_toDigits k), plain, Option.bind_some]
  dsimp only
  rw [ends, Option.bind_some, gathered]
  dsimp only
  rw [rest]
  dsimp only
  rw [shift, scaled]

theorem eq_ofNat_of_toInt? {i : Int} (whole : n.toInt? = some i) (small : i.natAbs ≤ greatestExact)
    (signed : n ≠ .zero true) :
    n = if decide (i < 0) then (Binary64.ofNat i.natAbs).neg else .ofNat i.natAbs := by
  obtain ⟨negative, k, representable, rfl, rfl⟩ := Binary64.exists_of_toInt? whole
  rw [Binary64.natAbs_signed] at small ⊢
  have bound : k ≤ 2 ^ 53 := le_trans small (by decide)
  rw [Binary64.ofNat_eq bound]
  cases negative with
  | false =>
    have sign : decide (Binary64.signed false k < 0) = false :=
      decide_eq_false (Int.not_lt.mpr (Int.natCast_nonneg k))
    rw [sign, if_neg Bool.false_ne_true]
  | true =>
    have some : k ≠ 0 := by
      rintro rfl
      exact signed (by simp only [Nat.zero_mul]; rfl)
    rw [Binary64.signed_neg_iff some, if_pos rfl]
    rfl

/-- Whole numbers of at most 53 bits have a JSON text that is read as the number, but for the negative zero. -/
theorem readNumber?_of_whole {i : Int} (whole : n.toInt? = some i) (small : i.natAbs ≤ greatestExact)
    (signed : n ≠ .zero true) : readNumber? (numberChars n) = some n := by
  have text : numberChars n = Layout.signed (decide (i < 0)) (toDigits 10 i.natAbs) := by
    rw [numberChars, whole]
    exact if_pos small
  have bound : i.natAbs < 2 ^ 53 := Nat.lt_succ_of_le small
  rw [text, eq_ofNat_of_toInt? whole small signed]
  cases decide (i < 0) with
  | true =>
    rw [Layout.signed_true, if_pos rfl, readNumber?_minus, magnitude?_toDigits bound]
    rfl
  | false =>
    have plain : ∀ rest, toDigits 10 i.natAbs ≠ '-' :: rest := by
      intro rest same
      have first : '-' ∈ toDigits 10 i.natAbs := by simp [same]
      have digit : '-'.isDigit := isDigit_toDigits _ _ first
      cases digit
    rw [Layout.signed_false, if_neg Bool.false_ne_true, readNumber?_unsigned plain,
      magnitude?_toDigits bound]

/-! ## Strings -/

theorem hexUnit?_control {code : Nat} (control : code < 32) :
    hexUnit? '0' '0' (Nat.digitChar (code / 16)) (Nat.digitChar (code % 16)) = some code := by
  have all : ∀ code < 32,
      hexUnit? '0' '0' (Nat.digitChar (code / 16)) (Nat.digitChar (code % 16)) = some code := by decide
  exact all code control

theorem unescape?_plain (other : c ≠ '\\') (rest : List Char) :
    unescape? (c :: rest) = (unescape? rest).map (c :: ·) := by
  rw [unescape?]
  · rw [if_neg other]
  · rintro _ _ _ _ _ rfl
    exact absurd rfl other
  · rintro _ _ rfl
    exact absurd rfl other

theorem unescape?_control (control : c.toNat < 0x20) (rest : List Char) :
    unescape? ('\\' :: 'u' :: '0' :: '0' :: Nat.digitChar (c.toNat / 16) :: Nat.digitChar (c.toNat % 16) :: rest) =
      (unescape? rest).map (c :: ·) := by
  have high : isHighSurrogate c.toNat = false := by
    simp only [isHighSurrogate, Bool.and_eq_false_iff, decide_eq_false_iff_not]
    omega
  have low : isLowSurrogate c.toNat = false := by
    simp only [isLowSurrogate, Bool.and_eq_false_iff, decide_eq_false_iff_not]
    omega
  rw [unescape?, hexUnit?_control control]
  dsimp only
  rw [high, low, if_neg Bool.false_ne_true, if_neg Bool.false_ne_true, Char.ofNat_toNat]

/-- The ways to escape a character: with a backslash before another one that stands for it, by its code, or not at
all. -/
inductive Escapes (c : Char) : List Char → Prop
  | short {mark : Char} (stands : ∀ rest, unescape? ('\\' :: mark :: rest) = (unescape? rest).map (c :: ·)) :
      Escapes c ['\\', mark]
  | control (control : c.toNat < 0x20) :
      Escapes c ['\\', 'u', '0', '0', Nat.digitChar (c.toNat / 16), Nat.digitChar (c.toNat % 16)]
  | plain (quote : c ≠ '"') (backslash : c ≠ '\\') (printed : 0x20 ≤ c.toNat) : Escapes c [c]

theorem escapes_escape (c : Char) : Escapes c (escape c) := by
  have short : ∀ d mark, (∀ rest, unescape? ('\\' :: mark :: rest) = (unescape? rest).map (d :: ·)) → c = d →
      Escapes c ['\\', mark] := by
    rintro d mark stands rfl
    exact .short stands
  unfold escape
  split
  · next same => exact short _ _ (fun _ => rfl) same
  next quote =>
  split
  · next same => exact short _ _ (fun _ => rfl) same
  next backslash =>
  split
  · next same => exact short _ _ (fun _ => rfl) same
  split
  · next same => exact short _ _ (fun _ => rfl) same
  split
  · next same => exact short _ _ (fun _ => rfl) same
  split
  · next same => exact short _ _ (fun _ => rfl) same
  split
  · next same => exact short _ _ (fun _ => rfl) same
  split
  · next control => exact .control control
  · next printed => exact .plain quote backslash (by omega)

theorem unescape?_escape (c : Char) (rest : List Char) :
    unescape? (escape c ++ rest) = (unescape? rest).map (c :: ·) := by
  have escapes := escapes_escape c
  generalize escape c = written at escapes ⊢
  cases escapes with
  | short stands => exact stands rest
  | control control => exact unescape?_control control rest
  | plain _ backslash _ => exact unescape?_plain backslash rest

theorem unescape?_flatMap_escape (text : List Char) : unescape? (text.flatMap escape) = some text := by
  induction text with
  | nil => rfl
  | cons c rest ih =>
    rw [List.flatMap_cons, unescape?_escape, ih]
    rfl

/-! ## Tokens -/

namespace Lexer

variable {found : List Token} {seen : List Char}

/-- The tokens of what is left of a text. -/
def rest? (lexer : Lexer) (text : List Char) : Option (List Token) :=
  (text.foldlM step? lexer).bind finish?

theorem rest?_cons (lexer : Lexer) (c : Char) (text : List Char) :
    lexer.rest? (c :: text) = (lexer.step? c).bind fun next => next.rest? text := by
  rw [rest?, List.foldlM_cons, Option.bind_eq_bind, Option.bind_assoc]
  rfl

theorem rest?_word (word rest : List Char) (are : ∀ c ∈ word, isWordChar c) :
    rest? ⟨.word seen, found⟩ (word ++ rest) = rest? ⟨.word (word.reverse ++ seen), found⟩ rest := by
  induction word generalizing seen with
  | nil => rfl
  | cons c word ih =>
    obtain ⟨first, others⟩ := List.forall_mem_cons.mp are
    have step : step? ⟨.word seen, found⟩ c = some ⟨.word (c :: seen), found⟩ := if_pos first
    rw [List.cons_append, rest?_cons, step, Option.bind_some, ih others, List.reverse_cons, List.append_assoc]
    rfl

/-- A word ends with the text or before the next character that is not of a word. -/
theorem rest?_of_word {token : Token} (names : wordToken? seen.reverse = some token)
    (stop : rest.head?.any isWordChar = false) :
    rest? ⟨.word seen, found⟩ rest = rest? ⟨.between, token :: found⟩ rest := by
  cases rest with
  | nil =>
    show (wordToken? seen.reverse).map _ = _
    rw [names]
    rfl
  | cons c rest =>
    have other : isWordChar c = false := stop
    have step : step? ⟨.word seen, found⟩ c = enter? (token :: found) c := by
      show (if isWordChar c then _ else (wordToken? seen.reverse).bind _) = _
      rw [other, if_neg Bool.false_ne_true, names, Option.bind_some]
    rw [rest?_cons, rest?_cons, step]
    rfl

theorem rest?_plain (quote : c ≠ '"') (backslash : c ≠ '\\') (printed : 0x20 ≤ c.toNat) :
    rest? ⟨.quoted seen, found⟩ (c :: rest) = rest? ⟨.quoted (c :: seen), found⟩ rest := by
  have step : step? ⟨.quoted seen, found⟩ c = some ⟨.quoted (c :: seen), found⟩ := by
    unfold step?
    dsimp only
    rw [if_neg quote, if_neg backslash, if_neg (Nat.not_lt.mpr printed)]
  rw [rest?_cons, step, Option.bind_some]

theorem rest?_escaped : rest? ⟨.quoted seen, found⟩ ('\\' :: c :: rest) =
    rest? ⟨.quoted (c :: '\\' :: seen), found⟩ rest := by
  rw [rest?_cons]
  rfl

theorem rest?_escape (c : Char) (rest : List Char) :
    rest? ⟨.quoted seen, found⟩ (escape c ++ rest) =
      rest? ⟨.quoted ((escape c).reverse ++ seen), found⟩ rest := by
  have digits : ∀ d < 16, Nat.digitChar d ≠ '"' ∧ Nat.digitChar d ≠ '\\' ∧ 0x20 ≤ (Nat.digitChar d).toNat := by
    decide
  have escapes := escapes_escape c
  generalize escape c = written at escapes ⊢
  cases escapes with
  | short => exact rest?_escaped
  | plain quote backslash printed => exact rest?_plain quote backslash printed
  | control control =>
    obtain ⟨highQuote, highBackslash, highPrinted⟩ := digits (c.toNat / 16) (by omega)
    obtain ⟨lowQuote, lowBackslash, lowPrinted⟩ := digits (c.toNat % 16) (by omega)
    simp only [List.cons_append, List.nil_append]
    rw [rest?_escaped, rest?_plain (by decide) (by decide) (by decide),
      rest?_plain (by decide) (by decide) (by decide), rest?_plain highQuote highBackslash highPrinted,
      rest?_plain lowQuote lowBackslash lowPrinted]
    rfl

theorem rest?_escapes (text rest : List Char) :
    rest? ⟨.quoted seen, found⟩ (text.flatMap escape ++ rest) =
      rest? ⟨.quoted ((text.flatMap escape).reverse ++ seen), found⟩ rest := by
  induction text generalizing seen with
  | nil => rfl
  | cons c text ih =>
    rw [List.flatMap_cons, List.append_assoc, rest?_escape, ih, List.reverse_append, List.append_assoc]

theorem rest?_quote {text : List Char} (resolves : unescape? seen.reverse = some text) (rest : List Char) :
    rest? ⟨.quoted seen, found⟩ ('"' :: rest) = rest? ⟨.between, .string (String.ofList text) :: found⟩ rest := by
  have step : step? ⟨.quoted seen, found⟩ '"' = some ⟨.between, .string (String.ofList text) :: found⟩ := by
    show (unescape? seen.reverse).map _ = _
    rw [resolves]
    rfl
  rw [rest?_cons, step, Option.bind_some]

end Lexer

/-- Whether a text has the given tokens, before anything that does not go on with its last word. -/
def Lexes (text : List Char) (tokens : List Token) : Prop :=
  ∀ found rest, rest.head?.any isWordChar = false →
    Lexer.rest? ⟨.between, found⟩ (text ++ rest) = Lexer.rest? ⟨.between, tokens.reverse ++ found⟩ rest

theorem Lexes.nil : Lexes [] [] :=
  fun _ _ _ => rfl

/-- A mark stands between any two tokens. -/
theorem Lexes.mark {tokens tokens' : List Token} {text' : List Char} (first : Lexes text tokens)
    (marks : c ∈ ['[', ']', '\x7b', '\x7d', ',', ':']) (others : Lexes text' tokens') :
    Lexes (text ++ c :: text') (tokens ++ .mark c :: tokens') := by
  intro found rest stop
  have other : isWordChar c = false ∧ ∀ found, Lexer.enter? found c = some ⟨.between, .mark c :: found⟩ := by
    simp only [List.mem_cons, List.not_mem_nil, or_false] at marks
    rcases marks with rfl | rfl | rfl | rfl | rfl | rfl <;> exact ⟨rfl, fun _ => rfl⟩
  rw [List.append_assoc, List.cons_append, first found _ (by simp [other.1]), Lexer.rest?_cons]
  show (Lexer.enter? _ c).bind _ = _
  rw [other.2, Option.bind_some, others _ rest stop, List.reverse_append, List.reverse_cons]
  simp only [List.append_assoc, List.cons_append, List.nil_append]

theorem enter?_word (word : isWordChar c) (found : List Token) :
    Lexer.enter? found c = some ⟨.word [c], found⟩ := by
  have other : ∀ d, isWordChar d = false → c ≠ d := by
    rintro d none rfl
    rw [word] at none
    cases none
  unfold Lexer.enter?
  rw [if_neg, if_neg, if_neg (other _ rfl), if_pos word]
  · simp only [List.mem_cons, List.not_mem_nil, or_false, not_or]
    exact ⟨other _ rfl, other _ rfl, other _ rfl, other _ rfl, other _ rfl, other _ rfl⟩
  · simp only [not_or]
    exact ⟨other _ rfl, other _ rfl, other _ rfl, other _ rfl⟩

theorem lexes_word {token : Token} (nonempty : text ≠ []) (are : ∀ c ∈ text, isWordChar c)
    (names : wordToken? text = some token) : Lexes text [token] := by
  intro found rest stop
  obtain ⟨c, others, rfl⟩ := List.exists_cons_of_ne_nil nonempty
  obtain ⟨first, are⟩ := List.forall_mem_cons.mp are
  have step : Lexer.step? ⟨.between, found⟩ c = some ⟨.word [c], found⟩ := enter?_word first found
  rw [List.cons_append, Lexer.rest?_cons, step, Option.bind_some, Lexer.rest?_word others rest are,
    Lexer.rest?_of_word (by simpa using names) stop]
  rfl

theorem lexes_string (s : String) : Lexes (stringChars s) [.string s] := by
  intro found rest _
  have resolves : unescape? ((s.toList.flatMap escape).reverse ++ []).reverse = some s.toList := by
    rw [List.append_nil, List.reverse_reverse, unescape?_flatMap_escape]
  have text : stringChars s ++ rest = '"' :: (s.toList.flatMap escape ++ '"' :: rest) := by
    simp [stringChars]
  have step : Lexer.step? ⟨.between, found⟩ '"' = some ⟨.quoted [], found⟩ := rfl
  rw [text, Lexer.rest?_cons, step, Option.bind_some, Lexer.rest?_escapes, Lexer.rest?_quote resolves,
    String.ofList_toList]
  rfl

theorem lexes_number (reads : readNumber? text = some n) : Lexes text [.number n] := by
  refine lexes_word ?_ (isWordChar_of_readNumber? reads) (wordToken?_of_readNumber? reads)
  rintro rfl
  cases reads

end Formula.Json
