import Formula.Proofs.Literals
import Formula.Proofs.Precedence

/-!
# Quotes around operands

What the leaf of an operand is, whatever quotes it starts or ends with. Between two equal quotes a text is a string
as it is, and without quotes at its ends it is taken as it is. Half a pair is left out too.
-/

namespace Formula

variable {m : Type → Type} {C : Type}

namespace Value

/-- The text between two equal quotes at the ends. -/
def between? : List Char → Option (List Char)
  | [] => none
  | quote :: rest => if isQuote quote && rest.getLast? == some quote then some rest.dropLast else none

/-- The value of an operand from which nothing but a pair of quotes is taken. -/
def verbatim (text : List Char) : Value :=
  match between? text with
  | some content => .string (String.ofList content)
  | none => ofUnquoted text

/-- The value of an operand by the quotes at its ends. -/
inductive Unquotes : List Char → Value → Prop
  | plain {text : List Char} (opening : text.head?.any isQuote = false)
      (closing : text.getLast?.any isQuote = false) : Unquotes text (ofUnquoted text)
  | pair {quote : Char} (marks : isQuote quote) (content : List Char) :
      Unquotes (quote :: content ++ [quote]) (.string (String.ofList content))
  | unlike {first last : Char} (marks : isQuote first) (marks' : isQuote last) (distinct : first ≠ last)
      (content : List Char) : Unquotes (first :: content ++ [last]) (.string (String.ofList content))
  /-- Also of a lone quote. -/
  | onlyFirst {quote : Char} (marks : isQuote quote) {content : List Char}
      (closing : content.getLast?.any isQuote = false) :
      Unquotes (quote :: content) (.string (String.ofList content))
  | onlyLast {quote : Char} (marks : isQuote quote) {content : List Char} (some : content ≠ [])
      (opening : content.head?.any isQuote = false) : Unquotes (content ++ [quote]) (ofUnquoted content)

theorem exists_last_quote {text : List Char} (closing : text.getLast?.any isQuote) :
    ∃ content quote, text = content ++ [quote] ∧ isQuote quote := by
  cases last : text.getLast? with
  | none =>
    rw [last] at closing
    cases closing
  | some quote =>
    rw [last] at closing
    obtain ⟨content, split⟩ := List.getLast?_eq_some_iff.mp last
    exact ⟨content, quote, split, closing⟩

theorem head?_concat {content : List Char} (some : content ≠ []) (quote : Char) :
    (content ++ [quote]).head? = content.head? := by
  cases content with
  | nil => exact absurd rfl some
  | cons => rfl

theorem ofOperand_of_first {quote : Char} (marks : isQuote quote) (rest : List Char) :
    ofOperand (quote :: rest) = .string (String.ofList (dropClosingQuote rest)) := by
  unfold ofOperand
  dsimp only
  rw [dropOpeningQuote, if_pos marks, List.head?_cons, Option.any_some, if_pos marks]

theorem dropClosingQuote_concat {quote : Char} (marks : isQuote quote) (content : List Char) :
    dropClosingQuote (content ++ [quote]) = content := by
  rw [dropClosingQuote, List.getLast?_concat, Option.any_some, if_pos marks, List.dropLast_concat]

theorem dropClosingQuote_eq_self {text : List Char} (closing : text.getLast?.any isQuote = false) :
    dropClosingQuote text = text := by
  rw [dropClosingQuote, closing, if_neg Bool.false_ne_true]

theorem Unquotes.eq {text : List Char} {v : Value} (unquotes : Unquotes text v) : v = ofOperand text := by
  cases unquotes with
  | plain opening closing => exact (ofOperand_of_ends opening closing).symm
  | pair marks content => exact (ofOperand_quoted marks content).symm
  | unlike marks marks' distinct content =>
    rw [List.cons_append, ofOperand_of_first marks, dropClosingQuote_concat marks']
  | onlyFirst marks closing => rw [ofOperand_of_first marks, dropClosingQuote_eq_self closing]
  | @onlyLast quote marks content some opening =>
    have front : (content ++ [quote]).head?.any isQuote = false := by rwa [head?_concat some]
    unfold ofOperand
    dsimp only
    rw [front, dropOpeningQuote_eq_self front, dropClosingQuote_concat marks, if_neg Bool.false_ne_true]

theorem exists_unquotes (text : List Char) : ∃ v, Unquotes text v := by
  cases text with
  | nil => exact ⟨_, .plain rfl rfl⟩
  | cons first rest =>
    cases marks : isQuote first with
    | true =>
      cases closing : rest.getLast?.any isQuote with
      | false => exact ⟨_, .onlyFirst marks closing⟩
      | true =>
        obtain ⟨content, last, rfl, marks'⟩ := exists_last_quote closing
        by_cases same : first = last
        · subst same
          exact ⟨_, .pair marks content⟩
        · exact ⟨_, .unlike marks marks' same content⟩
    | false =>
      cases closing : (first :: rest).getLast?.any isQuote with
      | false => exact ⟨_, .plain marks closing⟩
      | true =>
        obtain ⟨content, last, split, marks'⟩ := exists_last_quote closing
        have some : content ≠ [] := by
          rintro rfl
          cases split
          rw [marks] at marks'
          cases marks'
        have opening : content.head?.any isQuote = false := by
          rw [← head?_concat some last, ← split]
          exact marks
        rw [split]
        exact ⟨_, .onlyLast marks' some opening⟩

theorem unquotes_iff {text : List Char} {v : Value} : Unquotes text v ↔ v = ofOperand text := by
  refine ⟨Unquotes.eq, ?_⟩
  rintro rfl
  obtain ⟨v, unquotes⟩ := exists_unquotes text
  rwa [← unquotes.eq]

/-! ## Pairs -/

theorem between?_pair {quote : Char} (marks : isQuote quote) (content : List Char) :
    between? (quote :: content ++ [quote]) = some content := by
  rw [List.cons_append, between?, marks, List.getLast?_concat, beq_self_eq_true, Bool.true_and, if_pos rfl,
    List.dropLast_concat]

theorem between?_of_opening {text : List Char} (opening : text.head?.any isQuote = false) : between? text = none := by
  cases text with
  | nil => rfl
  | cons first rest =>
    have plain : isQuote first = false := opening
    rw [between?, plain, Bool.false_and, if_neg Bool.false_ne_true]

theorem between?_of_last {quote : Char} {rest : List Char} (other : rest.getLast? ≠ some quote) :
    between? (quote :: rest) = none := by
  rw [between?, beq_eq_false_iff_ne.mpr other, Bool.and_false, if_neg Bool.false_ne_true]

/-- A pair is what the scan does not take for an open quote. -/
theorem isSome_between? (text : List Char) :
    (between? text).isSome = (text.head?.any isQuote && !isOpenQuote text) := by
  cases text with
  | nil => rfl
  | cons quote rest =>
    rw [between?, isOpenQuote, List.head?_cons, Option.any_some]
    cases isQuote quote with
    | false => rfl
    | true =>
      by_cases last : rest.getLast? = some quote
      · simp [last]
      · simp [last]

theorem ne_ofUnquoted {v : Value} {text : List Char} (shorter : v.chars.length < text.length) :
    v ≠ ofUnquoted text := by
  rintro rfl
  rw [chars_ofUnquoted] at shorter
  exact Nat.lt_irrefl _ shorter

theorem eq_verbatim_iff_of_half {v : Value} {text : List Char} (half : between? text = none)
    (quoted : (text.head?.any isQuote || text.getLast?.any isQuote) = true)
    (shorter : v.chars.length < text.length) :
    v = verbatim text ↔
      (between? text).isSome ∨ text.head?.any isQuote = false ∧ text.getLast?.any isQuote = false := by
  rw [verbatim, half]
  refine iff_of_false (ne_ofUnquoted shorter) ?_
  rintro (pair | ⟨opening, closing⟩)
  · cases pair
  · rw [opening, closing] at quoted
    cases quoted

/-- Only a pair of quotes is taken from an operand, unless it has half a pair. -/
theorem ofOperand_eq_verbatim_iff (text : List Char) :
    ofOperand text = verbatim text ↔
      (between? text).isSome ∨ text.head?.any isQuote = false ∧ text.getLast?.any isQuote = false := by
  have value := unquotes_iff.mpr (Eq.refl (ofOperand text))
  generalize ofOperand text = v at value
  have first : ∀ {quote : Char} (rest : List Char), isQuote quote →
      ((quote :: rest).head?.any isQuote || (quote :: rest).getLast?.any isQuote) = true :=
    fun _ marks => Bool.or_eq_true_iff.mpr (Or.inl marks)
  cases value with
  | plain opening closing =>
    rw [verbatim, between?_of_opening opening]
    exact iff_of_true rfl (Or.inr ⟨opening, closing⟩)
  | pair marks content =>
    rw [verbatim, between?_pair marks]
    exact iff_of_true rfl (Or.inl rfl)
  | @unlike first' last marks marks' distinct content =>
    have last : (content ++ [last]).getLast? ≠ some first' := by
      rw [List.getLast?_concat]
      exact fun same => distinct (Option.some.inj same).symm
    refine eq_verbatim_iff_of_half (between?_of_last last) (first _ marks) ?_
    rw [chars_string, String.toList_ofList, List.cons_append, List.length_cons, List.length_append]
    omega
  | @onlyFirst quote marks content closing =>
    have last : content.getLast? ≠ some quote := by
      intro last
      rw [last, Option.any_some, marks] at closing
      cases closing
    refine eq_verbatim_iff_of_half (between?_of_last last) (first _ marks) ?_
    rw [chars_string, String.toList_ofList]
    exact Nat.lt_succ_self _
  | @onlyLast quote marks content some opening =>
    rw [← head?_concat some quote] at opening
    refine eq_verbatim_iff_of_half (between?_of_opening opening) ?_ ?_
    · rw [List.getLast?_concat, Option.any_some, marks, Bool.or_true]
    · rw [chars_ofUnquoted, List.length_append]
      exact Nat.lt_succ_self _

end Value

/-! ## Operands of a scan -/

@[simp] theorem trim_trim (text : List Char) : trim (trim text) = trim text :=
  trim_eq_self (head?_trim text) (getLast?_trim text)

namespace Scan

variable {g : Grammar m C} {s : Scan m C} {p : Phrase m C}

theorem trim_operand_of_found {c : Char} {rest : List Char} (found : s.step g c rest = .found p) :
    trim p.operand = p.operand := by
  rw [step_eq_act] at found
  cases stops_of_found found with
  | constant | bracket | binary => exact trim_trim _

theorem trim_operand {text : List Char} (member : p ∈ s.phrases g text) : trim p.operand = p.operand := by
  fun_induction phrases g s text with
  | case1 s =>
    rw [List.mem_singleton.mp member]
    exact trim_trim _
  | case2 s c rest next more ih => exact ih member
  | case3 s c rest first found ih =>
    rcases List.mem_cons.mp member with rfl | later
    · exact trim_operand_of_found found
    · exact ih later

end Scan

namespace Phrase

theorem of_value_mem_items {closed : Bool} {p : Phrase m C} {v : Value} (member : Item.value v ∈ p.items closed) :
    v = Value.ofOperand p.operand := by
  have operand : Item.value v ∈ p.operandItems closed → v = Value.ofOperand p.operand := by
    unfold operandItems
    cases closed <;> simp
  unfold items at member
  split at member
  · simp at member
  · simp at member
  · exact operand (by simpa using member)
  · exact operand (by simpa using member)
  · exact operand member

theorem of_value_mem_allItems {closed : Bool} {ps : List (Phrase m C)} {v : Value}
    (member : Item.value v ∈ allItems closed ps) : ∃ p ∈ ps, v = Value.ofOperand p.operand := by
  induction ps generalizing closed with
  | nil => cases member
  | cons p rest ih =>
    rcases List.mem_append.mp member with here | later
    · exact ⟨p, List.mem_cons_self, of_value_mem_items here⟩
    · obtain ⟨q, listed, value⟩ := ih later
      exact ⟨q, List.mem_cons_of_mem _ listed, value⟩

end Phrase

theorem Tree.value_mem_items {t : Tree m C} {v : Value} (leaf : .leaf v ∈ t.nodes) : Item.value v ∈ t.items := by
  induction t with
  | leaf w =>
    cases List.mem_singleton.mp leaf
    exact List.mem_singleton.mpr rfl
  | constant op => cases List.mem_singleton.mp leaf
  | unary op operand ih =>
    rcases List.mem_cons.mp leaf with root | below
    · cases root
    · exact List.mem_cons_of_mem _ (ih below)
  | group inner ih =>
    rcases List.mem_cons.mp leaf with root | below
    · cases root
    · exact List.mem_append_left _ (List.mem_cons_of_mem _ (ih below))
  | binary op priority left right leftIh rightIh =>
    rcases List.mem_append.mp leaf with below | onRight
    · rcases List.mem_cons.mp below with root | onLeft
      · cases root
      · exact List.mem_append_left _ (leftIh onLeft)
    · exact List.mem_append_right _ (List.mem_cons_of_mem _ (rightIh onRight))

namespace Grammar

/-- Each leaf of a text is the value of an operand that is scanned in it, which has no blanks around it. What that
value is depends on the quotes at the ends of the operand only: it is the string between two equal ones, and the
operand itself, character for character, where there are none. Half a pair is left out as well, so that these are
all operands of which nothing but a pair is taken. -/
theorem leaves_unquoted :
    (∀ (g : Grammar m C) (text : String) (offset : Nat) (t : Tree m C), g.parse text offset = .ok t →
        ∀ v, .leaf v ∈ t.nodes →
          ∃ p ∈ Scan.phrases g (.startingAt false offset) ((dropBytes? offset text.toList).getD []),
            trim p.operand = p.operand ∧ v = Value.ofOperand p.operand) ∧
      (∀ (operand : List Char) (v : Value), Value.Unquotes operand v ↔ v = Value.ofOperand operand) ∧
      (∀ operand : List Char, Value.ofOperand operand = Value.verbatim operand ↔
        (Value.between? operand).isSome ∨
          operand.head?.any isQuote = false ∧ operand.getLast?.any isQuote = false) ∧
      (∀ operand : List Char,
        (Value.between? operand).isSome = (operand.head?.any isQuote && !isOpenQuote operand)) ∧
      ∀ operand : List Char, (Value.ofUnquoted operand).chars = operand := by
  refine ⟨fun g text offset t parsed v leaf => ?_, fun _ _ => Value.unquotes_iff, Value.ofOperand_eq_verbatim_iff,
    Value.isSome_between?, Value.chars_ofUnquoted⟩
  obtain ⟨_, unread, items, _⟩ := parse_items parsed
  have scanned : Item.value v ∈ g.scanned text offset := by
    rw [← items]
    exact List.mem_append_left _ (Tree.value_mem_items leaf)
  obtain ⟨p, member, value⟩ := Phrase.of_value_mem_allItems scanned
  exact ⟨p, member, Scan.trim_operand member, value⟩

theorem leaves_unquoted_double :
    ∃ p ∈ Scan.phrases (Grammar.ofVocabulary (.builtin ⟨fun _ _ => .absent⟩) .wordsOnly : Grammar Id Unit)
        (.startingAt false 0) ((dropBytes? 0 "\"it's\"".toList).getD []),
      trim p.operand = p.operand ∧ Value.string "it's" = Value.ofOperand p.operand := by
  obtain ⟨leaves, _⟩ := leaves_unquoted (m := Id) (C := Unit)
  have parsed : (Grammar.ofVocabulary (.builtin ⟨fun _ _ => .absent⟩) .wordsOnly : Grammar Id Unit).parse
      "\"it's\"" 0 = .ok (.leaf (.string "it's")) := rfl
  exact leaves _ _ _ _ parsed _ List.mem_cons_self

/-- The quote behind the digit opens nothing and is no half of a pair, and what is left of the text is a number. -/
theorem closing_quote_dropped :
    ∃ p : Phrase Id Unit,
      Scan.phrases (.ofVocabulary (.builtin ⟨fun _ _ => .absent⟩) .wordsOnly) (.startingAt false 0) "5'".toList =
          [p] ∧
        p.operand = "5'".toList ∧ Value.between? p.operand = none ∧ isOpenQuote p.operand = false ∧
        Value.ofUnquoted p.operand = .string "5'" ∧
        (Grammar.ofVocabulary (.builtin ⟨fun _ _ => .absent⟩) .wordsOnly : Grammar Id Unit).parse "5'" 0 =
          .ok (.leaf (.number (.ofNat 5))) := by
  have unspelled : Value.ofUnquoted "5'".toList = .string "5'" := by
    rw [Value.ofUnquoted, if_neg (by decide +kernel)]
    rfl
  have operand : Value.ofOperand ['5', '\''] = .number (.ofNat 5) := by
    have last : Value.Unquotes (['5'] ++ ['\'']) (Value.ofUnquoted ['5']) :=
      .onlyLast rfl (List.cons_ne_nil _ _) rfl
    have number : Numeral.read ['5'] = .ofNat 5 := by decide +kernel
    rw [← List.singleton_append, ← last.eq, Value.ofUnquoted, number, if_pos (by decide +kernel)]
  have parsed : (Grammar.ofVocabulary (.builtin ⟨fun _ _ => .absent⟩) .wordsOnly : Grammar Id Unit).parse
      "5'" 0 = .ok (.leaf (Value.ofOperand ['5', '\''])) := rfl
  rw [operand] at parsed
  exact ⟨_, rfl, rfl, rfl, rfl, unspelled, parsed⟩

end Grammar

end Formula
