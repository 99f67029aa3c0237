import Formula.Proofs.Numerals
import Formula.Value.Lookup

/-!
# Joining at a point

A point between the texts of two values makes a number where the texts are the halves of a decimal numeral,
and nowhere else. What is left is a lookup.
-/

namespace Formula

theorem mapM_eq_none {α β : Type} {f : α → Option β} {a : α} {items : List α} (member : a ∈ items)
    (none : f a = .none) : items.mapM f = .none := by
  induction items with
  | nil => cases member
  | cons first rest ih =>
    rw [List.mapM_cons]
    rcases List.mem_cons.mp member with rfl | later
    · rw [none]
      rfl
    · rw [ih later]
      cases f first <;> rfl

namespace Numeral

/-! ## Decimal numerals -/

def IsSign (text : List Char) : Prop :=
  text = [] ∨ text = ['-'] ∨ text = ['+']

/-- The end of a decimal numeral. -/
inductive IsExponent : List Char → Prop
  | none : IsExponent []
  | some {mark : Char} {sign digits : List Char} (marks : mark = 'e' ∨ mark = 'E') (signs : IsSign sign)
      (some : digits ≠ []) (are : ∀ c ∈ digits, c.isDigit) : IsExponent (mark :: (sign ++ digits))

/-- Digits, a point before, among or behind them if there is one, and a sign and an exponent around them. -/
inductive IsDecimal : List Char → Prop
  | whole {sign whole exponent : List Char} (signs : IsSign sign) (some : whole ≠ [])
      (are : ∀ c ∈ whole, c.isDigit) (ends : IsExponent exponent) :
      IsDecimal (sign ++ (whole ++ exponent))
  | point {sign whole fraction exponent : List Char} (signs : IsSign sign)
      (some : whole ≠ [] ∨ fraction ≠ []) (are : ∀ c ∈ whole, c.isDigit)
      (are' : ∀ c ∈ fraction, c.isDigit) (ends : IsExponent exponent) :
      IsDecimal (sign ++ (whole ++ '.' :: (fraction ++ exponent)))

section

variable {text sign whole : List Char}

theorem exists_splitSign (text : List Char) :
    ∃ sign, IsSign sign ∧ text = sign ++ (splitSign text).2 := by
  unfold splitSign
  split
  · exact ⟨['-'], by simp [IsSign], rfl⟩
  · exact ⟨['+'], by simp [IsSign], rfl⟩
  · exact ⟨[], by simp [IsSign], rfl⟩

theorem splitSign_append (signs : IsSign sign)
    (plain : ∀ rest, text ≠ '-' :: rest ∧ text ≠ '+' :: rest) : (splitSign (sign ++ text)).2 = text := by
  rcases signs with rfl | rfl | rfl
  · rw [List.nil_append]
    unfold splitSign
    split
    · exact absurd rfl (plain _).1
    · exact absurd rfl (plain _).2
    · rfl
  · rfl
  · rfl

theorem plain_append (are : ∀ c ∈ whole, c.isDigit)
    (plain : ∀ rest, text ≠ '-' :: rest ∧ text ≠ '+' :: rest) (rest : List Char) :
    whole ++ text ≠ '-' :: rest ∧ whole ++ text ≠ '+' :: rest := by
  cases whole with
  | nil => exact plain rest
  | cons c others =>
    have digit := are c (List.mem_cons_self ..)
    constructor <;> intro same <;> obtain rfl := (List.cons.inj same).1 <;> cases digit

theorem plain_digits (are : ∀ c ∈ whole, c.isDigit) (rest : List Char) :
    whole ≠ '-' :: rest ∧ whole ≠ '+' :: rest := by
  have empty : ∀ rest : List Char, [] ≠ '-' :: rest ∧ [] ≠ '+' :: rest := by simp
  simpa using plain_append are empty rest

theorem exponent?_isSome_iff : (exponent? text).isSome ↔ IsExponent text := by
  constructor
  · intro found
    cases text with
    | nil => exact .none
    | cons mark rest =>
      obtain ⟨sign, signs, split⟩ := exists_splitSign rest
      unfold exponent? at found
      dsimp only at found
      split at found
      · next known =>
        rw [split]
        exact .some known.1 signs known.2.1 (List.all_eq_true.mp known.2.2)
      · cases found
  · intro ends
    cases ends with
    | none => rfl
    | some marks signs nonempty are =>
      unfold exponent?
      dsimp only
      rw [splitSign_append signs (plain_digits are), if_pos ⟨marks, nonempty, List.all_eq_true.mpr are⟩]
      rfl

theorem IsExponent.stop (ends : IsExponent text) : text.head?.any Char.isDigit = false := by
  cases ends with
  | none => rfl
  | some marks => rcases marks with rfl | rfl <;> rfl

theorem IsExponent.plain (ends : IsExponent text) (rest : List Char) :
    text ≠ '-' :: rest ∧ text ≠ '+' :: rest := by
  cases ends with
  | none => simp
  | some marks => rcases marks with rfl | rfl <;> simp

theorem IsExponent.splitFraction (ends : IsExponent text) : splitFraction text = ([], text) := by
  cases ends with
  | none => rfl
  | some marks => rcases marks with rfl | rfl <;> rfl

theorem isDecimal_of_isSome (found : (decimal? text).isSome) : IsDecimal text := by
  obtain ⟨sign, signs, split⟩ := exists_splitSign text
  unfold decimal? at found
  dsimp only at found
  generalize (splitSign text).2 = unsigned at split found
  have are : ∀ c ∈ unsigned.takeWhile Char.isDigit, c.isDigit := fun c member => List.mem_takeWhile_imp member
  rw [split, ← List.takeWhile_append_dropWhile (p := Char.isDigit) (l := unsigned)]
  generalize unsigned.takeWhile Char.isDigit = whole at are found
  generalize unsigned.dropWhile Char.isDigit = behind at found
  unfold splitFraction at found
  split at found
  · next rest =>
    have are' : ∀ c ∈ rest.takeWhile Char.isDigit, c.isDigit := fun c member => List.mem_takeWhile_imp member
    rw [← List.takeWhile_append_dropWhile (p := Char.isDigit) (l := rest)]
    generalize rest.takeWhile Char.isDigit = fraction at are' found
    generalize rest.dropWhile Char.isDigit = exponent at found
    dsimp only at found
    split at found
    · cases found
    · next some =>
      rw [Option.isSome_map, exponent?_isSome_iff] at found
      exact .point signs (by rwa [Classical.not_and_iff_not_or_not] at some) are are' found
  · dsimp only at found
    split at found
    · cases found
    · next some =>
      rw [Option.isSome_map, exponent?_isSome_iff] at found
      exact .whole signs (by simpa using some) are found

theorem IsDecimal.isSome (decimal : IsDecimal text) : (decimal? text).isSome := by
  unfold decimal?
  cases decimal with
  | whole signs some are ends =>
    obtain ⟨first, behind⟩ := takeWhile_isDigit are ends.stop
    dsimp only
    rw [splitSign_append signs (plain_append are ends.plain), first, behind, ends.splitFraction,
      if_neg fun none => some none.1, Option.isSome_map]
    exact exponent?_isSome_iff.mpr ends
  | @point sign whole fraction exponent signs some are are' ends =>
    have pointed : ('.' :: (fraction ++ exponent)).head?.any Char.isDigit = false := rfl
    obtain ⟨first, behind⟩ := takeWhile_isDigit are pointed
    obtain ⟨digits, after⟩ := takeWhile_isDigit are' ends.stop
    dsimp only
    rw [splitSign_append signs (plain_append are (by simp)), first, behind, splitFraction, digits, after,
      if_neg (by rwa [Classical.not_and_iff_not_or_not]), Option.isSome_map]
    exact exponent?_isSome_iff.mpr ends

/-- A text is read as a decimal numeral if and only if it is one. -/
theorem decimal?_isSome_iff : (decimal? text).isSome ↔ IsDecimal text :=
  ⟨isDecimal_of_isSome, IsDecimal.isSome⟩

end

/-! ## Texts with a point -/

theorem toBinary64_ne_nan (negative : Bool) (d : Decimal) : d.toBinary64 negative ≠ .nan := by
  unfold Decimal.toBinary64
  split
  · simp [Binary64.zero]
  · split
    · simp
    · split <;> apply Binary64.round_ne_nan

theorem isNaN_ofDecimal (text : List Char) : (ofDecimal text).isNaN = false ↔ IsDecimal text := by
  rw [← decimal?_isSome_iff, ofDecimal]
  cases decimal? text with
  | none => simp [Binary64.isNaN]
  | some reading =>
    have number := toBinary64_ne_nan reading.1 reading.2
    cases value : reading.2.toBinary64 reading.1 with
    | nan => exact absurd value number
    | _ => simp [value, Binary64.isNaN]

theorem ofRadix_of_point {radix : Nat} {digits : List Char} (point : '.' ∈ digits) :
    ofRadix radix digits = .nan := by
  have none : digit? radix '.' = none := if_neg (Nat.lt_irrefl radix)
  rw [ofRadix, if_neg (List.ne_nil_of_mem point), mapM_eq_none point none]

/-- A numeral with a point is a decimal one. -/
theorem read_of_point {text : List Char} (point : '.' ∈ text) : read text = ofDecimal (trim text) := by
  have kept : '.' ∈ trim text := mem_trim point (by decide)
  unfold read
  generalize trim text = trimmed at kept
  split
  · cases kept
  · next mark digits =>
    split
    · next radix known =>
      have behind : '.' ∈ digits := by
        simp only [List.mem_cons] at kept
        rcases kept with same | rfl | later
        · cases same
        · cases known
        · exact later
      rw [ofRadix_of_point behind]
      unfold radix? at known
      split at known <;> first | rfl | cases known
    · rfl
  · dsimp only
    rw [if_neg]
    intro name
    obtain ⟨sign, signs, split⟩ := exists_splitSign trimmed
    rw [split, name] at kept
    rcases signs with rfl | rfl | rfl <;> simp at kept

/-! ## Halves -/

/-- The texts before and behind the point of a decimal numeral, with the blanks around it. -/
inductive AroundPoint : List Char → List Char → Prop
  | intro {blanks sign whole fraction exponent blanks' : List Char} (blank : ∀ c ∈ blanks, isBlank c)
      (signs : IsSign sign) (some : whole ≠ [] ∨ fraction ≠ []) (are : ∀ c ∈ whole, c.isDigit)
      (are' : ∀ c ∈ fraction, c.isDigit) (ends : IsExponent exponent) (blank' : ∀ c ∈ blanks', isBlank c) :
      AroundPoint (blanks ++ (sign ++ whole)) (fraction ++ (exponent ++ blanks'))

theorem aroundPoint_digits {sign whole fraction : List Char} (signs : IsSign sign)
    (some : whole ≠ [] ∨ fraction ≠ []) (are : ∀ c ∈ whole, c.isDigit) (are' : ∀ c ∈ fraction, c.isDigit) :
    AroundPoint (sign ++ whole) fraction := by
  have around := AroundPoint.intro (List.forall_mem_nil _) signs some are are' .none (List.forall_mem_nil _)
  rwa [List.nil_append, List.append_nil, List.append_nil] at around

/-- The characters of the two halves. -/
def isPart (c : Char) : Bool :=
  c.isDigit || isBlank c || c ∈ ['e', 'E', '-', '+']

section

variable {c : Char} {text : List Char}

theorem mem_of_isSign (signs : IsSign text) (member : c ∈ text) : c ∈ ['e', 'E', '-', '+'] := by
  rcases signs with rfl | rfl | rfl <;> simp_all

theorem IsExponent.mem_cases (ends : IsExponent text) (member : c ∈ text) :
    c.isDigit ∨ c ∈ ['e', 'E', '-', '+'] := by
  cases ends with
  | none => cases member
  | some marks signs nonempty are =>
    rcases List.mem_cons.mp member with rfl | behind
    · rcases marks with rfl | rfl <;> simp
    · rcases List.mem_append.mp behind with sign | digit
      · exact Or.inr (mem_of_isSign signs sign)
      · exact Or.inl (are c digit)

theorem isBlank_of_mark (mark : c ∈ ['e', 'E', '-', '+']) : isBlank c = false := by
  simp only [List.mem_cons, List.not_mem_nil, or_false] at mark
  rcases mark with rfl | rfl | rfl | rfl <;> rfl

theorem IsDecimal.mem_cases (decimal : IsDecimal text) (member : c ∈ text) :
    c.isDigit ∨ c = '.' ∨ c ∈ ['e', 'E', '-', '+'] := by
  cases decimal with
  | whole signs some are ends =>
    simp only [List.mem_append] at member
    rcases member with first | behind | last
    · exact Or.inr (Or.inr (mem_of_isSign signs first))
    · exact Or.inl (are c behind)
    · exact (ends.mem_cases last).imp_right Or.inr
  | point signs some are are' ends =>
    simp only [List.mem_append, List.mem_cons] at member
    rcases member with first | whole | point | fraction | last
    · exact Or.inr (Or.inr (mem_of_isSign signs first))
    · exact Or.inl (are c whole)
    · exact Or.inr (Or.inl point)
    · exact Or.inl (are' c fraction)
    · exact (ends.mem_cases last).imp_right Or.inr

theorem IsDecimal.solid (decimal : IsDecimal text) (member : c ∈ text) : isBlank c = false := by
  rcases decimal.mem_cases member with digit | rfl | mark
  · exact isBlank_of_isDigit digit
  · rfl
  · exact isBlank_of_mark mark

end

theorem AroundPoint.isPart {before behind : List Char} (around : AroundPoint before behind) :
    (∀ c ∈ before, Numeral.isPart c) ∧ ∀ c ∈ behind, Numeral.isPart c := by
  cases around with
  | intro blank signs some are are' ends blank' =>
    constructor <;> intro c member <;> simp only [List.mem_append] at member <;>
      simp only [Numeral.isPart, Bool.or_eq_true, decide_eq_true_eq]
    · rcases member with first | sign | digit
      · exact Or.inl (Or.inr (blank c first))
      · exact Or.inr (mem_of_isSign signs sign)
      · exact Or.inl (Or.inl (are c digit))
    · rcases member with digit | exponent | last
      · exact Or.inl (Or.inl (are' c digit))
      · exact (ends.mem_cases exponent).imp_left Or.inl
      · exact Or.inl (Or.inr (blank' c last))

/-- A text with a point is read as a number if and only if it is a decimal numeral with a point, and neither
of its halves has another. -/
theorem isNaN_read_point {before behind : List Char} :
    (read (before ++ '.' :: behind)).isNaN = false ↔ AroundPoint before behind := by
  rw [read_of_point (by simp), isNaN_ofDecimal]
  constructor
  · intro decimal
    have kept : '.' ∈ trim (before ++ '.' :: behind) := mem_trim (by simp) (by decide)
    obtain ⟨blanks, blanks', split, blank, blank'⟩ := exists_trim_split (before ++ '.' :: behind)
    generalize trim (before ++ '.' :: behind) = trimmed at decimal kept split
    cases decimal with
    | whole signs some are ends =>
      simp only [List.mem_append] at kept
      rcases kept with first | digit | last
      · exact absurd (mem_of_isSign signs first) (by decide)
      · exact absurd (are '.' digit) (by decide)
      · exact absurd (ends.mem_cases last) (by decide)
    | @point sign whole fraction exponent signs some are are' ends =>
      have around := AroundPoint.intro blank signs some are are' ends blank'
      have halves : (blanks ++ (sign ++ whole)) ++ '.' :: (fraction ++ (exponent ++ blanks')) =
          before ++ '.' :: behind := by
        rw [split]
        simp
      obtain ⟨first, last⟩ := around.isPart
      rw [List.append_cons_inj_of_notMem (fun point => absurd (first '.' point) (by decide))
        (fun point => absurd (last '.' point) (by decide))] at halves
      obtain ⟨rfl, _, rfl⟩ := halves
      exact around
  · intro around
    cases around with
    | @intro blanks sign whole fraction exponent blanks' blank signs some are are' ends blank' =>
      have decimal := IsDecimal.point signs some are are' ends
      have text : blanks ++ (sign ++ whole) ++ '.' :: (fraction ++ (exponent ++ blanks')) =
          blanks ++ (sign ++ (whole ++ '.' :: (fraction ++ exponent)) ++ blanks') := by simp
      rw [text, trim_append_of_blanks blank, trim_append_blanks blank', trim_of_solid fun _ => decimal.solid]
      exact decimal

end Numeral

/-! ## The operator -/

namespace Value

/-- Whether the text of the value can be a half of a numeral. A list stands for the texts of its items with
commas between them. -/
def IsHalf : Value → Prop
  | .number _ | .string _ | .list [] | .list [_] => True
  | _ => False

/-- The text of anything else has a letter or a comma that numerals have not. -/
theorem isHalf_of_isPart {v : Value} (parts : ∀ c ∈ v.chars, Numeral.isPart c) : v.IsHalf := by
  have lacks : ∀ c, Numeral.isPart c = false → c ∉ v.chars := by
    intro c other member
    rw [parts c member] at other
    cases other
  cases v with
  | number | string => trivial
  | absent => exact absurd (show 'u' ∈ "undefined".toList by decide) (lacks 'u' (by decide))
  | null => exact absurd (show 'u' ∈ "null".toList by decide) (lacks 'u' (by decide))
  | map => exact absurd (show 't' ∈ "[object Object]".toList by decide) (lacks 't' (by decide))
  | callable => exact absurd (show 'u' ∈ "function".toList by decide) (lacks 'u' (by decide))
  | bool b =>
    cases b with
    | true => exact absurd (show 'u' ∈ "true".toList by decide) (lacks 'u' (by decide))
    | false => exact absurd (show 'a' ∈ "false".toList by decide) (lacks 'a' (by decide))
  | list items =>
    match items with
    | [] | [_] => trivial
    | item :: next :: rest =>
      exact absurd (List.mem_append_right _ (List.mem_cons_self ..)) (lacks ',' (by decide))

theorem wholePart_eq_chars {v : Value} (other : ∀ n, v ≠ .number n) : v.wholePart = v.chars := by
  cases v with
  | number n => exact absurd rfl (other n)
  | _ => rfl

section

variable {a b : Value}

theorem isHalf_of_around (around : Numeral.AroundPoint a.wholePart b.chars) : a.IsHalf ∧ b.IsHalf := by
  obtain ⟨first, last⟩ := around.isPart
  refine ⟨?_, isHalf_of_isPart last⟩
  by_cases number : ∃ n, a = .number n
  · obtain ⟨n, rfl⟩ := number
    trivial
  · rw [wholePart_eq_chars fun n same => number ⟨n, same⟩] at first
    exact isHalf_of_isPart first

theorem dot_of_around (host : Host) (around : Numeral.AroundPoint a.wholePart b.chars) :
    a.dot host b = .number (Numeral.read (a.wholePart ++ '.' :: b.chars)) := by
  rw [dot, Numeral.isNaN_read_point.mpr around]
  rfl

theorem dot_of_not_around (host : Host) (apart : ¬Numeral.AroundPoint a.wholePart b.chars) :
    a.dot host b = a.get host b := by
  rw [← Numeral.isNaN_read_point, Bool.not_eq_false] at apart
  rw [dot, apart]
  rfl

end

/-- Whether a point makes a number of two texts depends on the texts only, not on the values they are taken of.
Values whose texts are never halves of a numeral are left to the lookup. -/
theorem dot_joins_halves (host : Host) (a b : Value) :
    (∀ sign whole, sign = [] ∨ sign = ['-'] → whole ≠ [] → (∀ c ∈ whole, c.isDigit) →
        b.chars ≠ [] → (∀ c ∈ b.chars, c.isDigit) → a.wholePart = sign ++ whole →
        a.dot host b = .number (Numeral.read (a.wholePart ++ '.' :: b.chars))) ∧
      (Numeral.AroundPoint a.wholePart b.chars →
        a.dot host b = .number (Numeral.read (a.wholePart ++ '.' :: b.chars))) ∧
      (¬Numeral.AroundPoint a.wholePart b.chars → a.dot host b = a.get host b) ∧
      (¬a.IsHalf ∨ ¬b.IsHalf → a.dot host b = a.get host b) := by
  refine ⟨?_, dot_of_around host, dot_of_not_around host, fun other => ?_⟩
  · intro sign whole signs some are _ are' text
    have around := Numeral.aroundPoint_digits (signs.imp_right Or.inl) (Or.inl some) are are'
    rw [← text] at around
    exact dot_of_around host around
  · refine dot_of_not_around host fun around => ?_
    obtain ⟨first, last⟩ := isHalf_of_around around
    exact other.elim (· first) (· last)

theorem dot_of_padded_halves :
    (Value.string "-05").dot ⟨fun _ _ => .absent⟩ (.string "50") =
        .number (Numeral.read "-05.50".toList) ∧
      (Value.list []).dot ⟨fun _ _ => .absent⟩ (.string "5 ") = .number (Numeral.read ".5 ".toList) ∧
      (Value.string "a").dot ⟨fun _ _ => .absent⟩ (.string "0") =
        (Value.string "a").get ⟨fun _ _ => .absent⟩ (.string "0") ∧
      (Value.map [("5", .null)]).dot ⟨fun _ _ => .absent⟩ (.string "5") =
        (Value.map [("5", .null)]).get ⟨fun _ _ => .absent⟩ (.string "5") := by
  have digits : ∀ text : List Char, text.all Char.isDigit → ∀ c ∈ text, c.isDigit :=
    fun text all => List.all_eq_true.mp all
  have blank : ∀ c ∈ [' '], isBlank c := List.forall_mem_singleton.mpr rfl
  have padded : Numeral.AroundPoint (Value.list []).wholePart (Value.string "5 ").chars :=
    .intro (List.forall_mem_nil _) (Or.inl rfl) (Or.inr (List.cons_ne_nil '5' [])) (List.forall_mem_nil _)
      (digits ['5'] rfl) .none blank
  have letter : ¬Numeral.AroundPoint (Value.string "a").wholePart (Value.string "0").chars :=
    fun around => absurd (around.isPart.1 'a' (List.mem_singleton.mpr rfl)) (by decide)
  refine ⟨?_, ?_, ?_, ?_⟩
  · exact (dot_joins_halves _ _ _).1 ['-'] ['0', '5'] (Or.inr rfl) (List.cons_ne_nil '0' ['5']) (digits _ rfl)
      (List.cons_ne_nil '5' ['0']) (digits ['5', '0'] rfl) rfl
  · exact (dot_joins_halves _ _ _).2.1 padded
  · exact (dot_joins_halves _ _ _).2.2.1 letter
  · exact (dot_joins_halves _ _ _).2.2.2 (Or.inl id)

/-- A list of one item has the text of the item, so that its property can be taken for the digits of a
number. -/
theorem dot_of_one_item :
    ¬∀ (host : Host) (items : List Value) (b : Value),
      (Value.list items).dot host b = (Value.list items).get host b := by
  intro all
  have whole : ∀ c ∈ ['5'], c.isDigit := List.all_eq_true.mp rfl
  have fraction : ∀ c ∈ ['1'], c.isDigit := List.all_eq_true.mp rfl
  have around : Numeral.AroundPoint (Value.list [.string "5"]).wholePart (Value.string "1").chars :=
    Numeral.aroundPoint_digits (Or.inl rfl) (Or.inl (List.cons_ne_nil '5' [])) whole fraction
  have joined := dot_of_around ⟨fun _ _ => .absent⟩ around
  rw [all] at joined
  cases joined

end Value

end Formula
