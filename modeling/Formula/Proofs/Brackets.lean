import Formula.Proofs.Effects
import Formula.Proofs.Enclosing
import Formula.Proofs.Faults

/-!
# Brackets

Two brackets of a text match if the text between them is balanced. Where neither quotes nor tokens hide
a bracket, each one opens or closes a group, and the brackets that errors name are those that match none.
-/

namespace Formula

variable {m : Type → Type} {C : Type}

/-! ## Counting -/

/-- No part from the start on has more closing brackets than opening ones, and the whole has as many of
both. -/
structure Balanced (text : List Char) : Prop where
  ahead : ∀ first, first <+: text → first.count ')' ≤ first.count '('
  even : text.count ')' = text.count '('

/-- Whether a closing bracket behind `before` matches no opening one. -/
def LacksOpening (before : List Char) : Prop :=
  ∀ outer inner, before = outer ++ '(' :: inner → ¬Balanced inner

/-- Whether an opening bracket before `behind` matches no closing one. -/
def LacksClosing (behind : List Char) : Prop :=
  ∀ inner outer, behind = inner ++ ')' :: outer → ¬Balanced inner

/-- Where one character outnumbers another by more than `depth`, there is a first place at which it
does. -/
theorem exists_first_excess {up down : Char} (differ : up ≠ down) {text : List Char} (depth : Nat)
    (more : text.count up + depth < text.count down) :
    ∃ inner outer, text = inner ++ down :: outer ∧ inner.count down = inner.count up + depth ∧
      ∀ first, first <+: inner → first.count down ≤ first.count up + depth := by
  induction text generalizing depth with
  | nil => exact absurd more (Nat.not_lt_zero _)
  | cons c rest ih =>
    by_cases here : c = down ∧ depth = 0
    · obtain ⟨rfl, rfl⟩ := here
      refine ⟨[], rest, rfl, rfl, fun first within => ?_⟩
      rw [List.prefix_nil.mp within]
      exact Nat.le_refl _
    · obtain ⟨later, change⟩ : ∃ later,
          later + (if c = down then 1 else 0) = depth + if c = up then 1 else 0 := by
        rcases eq_or_ne c down with rfl | other
        · have positive : depth ≠ 0 := fun zero => here ⟨rfl, zero⟩
          refine ⟨depth - 1, ?_⟩
          rw [if_pos rfl, if_neg differ.symm]
          omega
        · exact ⟨depth + if c = up then 1 else 0, by rw [if_neg other, Nat.add_zero]⟩
      simp only [List.count_cons, beq_iff_eq] at more
      have more' : rest.count up + later < rest.count down := by omega
      obtain ⟨inner, outer, split, level, below⟩ := ih later more'
      refine ⟨c :: inner, outer, congrArg _ split, ?_, fun first within => ?_⟩
      · simp only [List.count_cons, beq_iff_eq]
        omega
      · rcases List.prefix_cons_iff.mp within with rfl | ⟨read, rfl, start⟩
        · exact Nat.zero_le _
        · have lower := below read start
          simp only [List.count_cons, beq_iff_eq]
          omega

theorem not_lacksClosing {behind : List Char} (more : behind.count '(' < behind.count ')') :
    ¬LacksClosing behind := by
  intro lacks
  obtain ⟨inner, outer, split, even, ahead⟩ := exists_first_excess (by decide) 0 more
  exact lacks inner outer split ⟨ahead, even⟩

/-- Read from its end, the text has a first place at which the opening brackets outnumber the others. -/
theorem not_lacksOpening {before : List Char} (more : before.count ')' < before.count '(') :
    ¬LacksOpening before := by
  intro lacks
  rw [← List.count_reverse, ← List.count_reverse (a := '(')] at more
  obtain ⟨inner, outer, split, even, ahead⟩ := exists_first_excess (by decide) 0 more
  have turned : before = outer.reverse ++ '(' :: inner.reverse := by
    rw [← List.reverse_reverse before, split]
    simp
  refine lacks _ _ turned ⟨?_, ?_⟩
  · rintro first ⟨last, whole⟩
    have start : last.reverse <+: inner :=
      ⟨first.reverse, by rw [← List.reverse_append, whole, List.reverse_reverse]⟩
    have level := ahead _ start
    have closings := congrArg (List.count ')') whole
    have openings := congrArg (List.count '(') whole
    simp only [List.count_append, List.count_reverse] at level closings openings
    omega
  · rw [List.count_reverse, List.count_reverse]
    omega

namespace Balanced

variable {text earlier later : List Char}

/-- A bracket that closes behind a balanced text closes too much. -/
theorem lacksOpening (balanced : Balanced text) : LacksOpening text := by
  rintro outer inner rfl between
  have level := balanced.ahead outer (List.prefix_append ..)
  have whole : outer.count ')' + inner.count ')' = outer.count '(' + (inner.count '(' + 1) := by
    simpa [List.count_append] using balanced.even
  have inside := between.even
  omega

theorem lacksClosing (balanced : Balanced text) : LacksClosing text := by
  rintro inner outer rfl between
  have level : inner.count ')' + 1 ≤ inner.count '(' := by
    simpa [List.count_append] using balanced.ahead (inner ++ [')']) ⟨outer, by simp⟩
  have inside := between.even
  omega

theorem not_lacksOpening (balanced : Balanced (earlier ++ ')' :: later)) : ¬LacksOpening earlier := by
  have level : earlier.count ')' + 1 ≤ earlier.count '(' := by
    simpa [List.count_append] using balanced.ahead (earlier ++ [')']) ⟨later, by simp⟩
  exact Formula.not_lacksOpening level

theorem not_lacksClosing (balanced : Balanced (earlier ++ '(' :: later)) : ¬LacksClosing later := by
  have level := balanced.ahead earlier (List.prefix_append ..)
  have whole : earlier.count ')' + later.count ')' = earlier.count '(' + (later.count '(' + 1) := by
    simpa [List.count_append] using balanced.even
  exact Formula.not_lacksClosing (by omega)

end Balanced

/-! ## Brackets of a text -/

theorem mem_of_mem_trim {c : Char} {text : List Char} (member : c ∈ trim text) : c ∈ text := by
  obtain ⟨before, behind, split, _⟩ := exists_trim_split text
  rw [split]
  exact List.mem_append_right _ (List.mem_append_left _ member)

theorem isOpenQuote_of_unquoted {text : List Char} (unquoted : ∀ c ∈ text, isQuote c = false) :
    isOpenQuote text = false := by
  cases text with
  | nil => rfl
  | cons c rest => rw [isOpenQuote, unquoted c (List.mem_cons_self ..), Bool.false_and]

/-- A phrase opens a group, closes one, or leaves them as they are. -/
theorem Assembly.Takes.length_groups {inside : Bool} {a b : Assembly m C} {p : Phrase m C}
    (takes : Takes inside a p (.next b)) :
    p.stop = .opening ∧ b.groups.length = a.groups.length + 1 ∨
      p.stop = .closing ∧ b.groups.length + 1 = a.groups.length ∨
      p.stop ≠ .opening ∧ p.stop ≠ .closing ∧ b.groups.length = a.groups.length := by
  cases takes with
  | opening spine building stop bare => exact Or.inl ⟨stop, rfl⟩
  | closing group outer groups stop bare => exact Or.inr (Or.inl ⟨stop, by rw [groups]; rfl⟩)
  | constant spine building entry stop =>
    exact Or.inr (Or.inr ⟨by rw [stop]; exact nofun, by rw [stop]; exact nofun, rfl⟩)
  | binary entry stop bare =>
    exact Or.inr (Or.inr ⟨by rw [stop]; exact nofun, by rw [stop]; exact nofun, rfl⟩)

namespace Scan

variable {g : Grammar m C} {s : Scan m C} {rest : List Char}

theorem act_opening (opening : g.Avoids '(') (unquoted : ∀ c ∈ s.buffer.reverse, isQuote c = false)
    (rest : List Char) : s.act '(' (mark g s.closed s.buffer '(' rest) =
      .found (s.phrase s.buffer.reverse .opening 1) := by
  have free := isOpenQuote_of_unquoted fun c member => unquoted c (mem_of_mem_trim member)
  rw [mark_opening opening, free]
  rfl

theorem act_closing (closing : g.Avoids ')') (unquoted : ∀ c ∈ s.buffer.reverse, isQuote c = false)
    (rest : List Char) : s.act ')' (mark g s.closed s.buffer ')' rest) =
      .found (s.phrase s.buffer.reverse .closing 1) := by
  have free := isOpenQuote_of_unquoted fun c member => unquoted c (mem_of_mem_trim member)
  rw [mark_closing closing, free]
  rfl

section

variable (opening : g.Avoids '(') (closing : g.Avoids ')')

include opening closing

/-- Each bracket changes the number of open groups by one, and nothing else does. -/
theorem read_level {c : Char} {a : Assembly m C} {t : Tree m C}
    (unquoted : ∀ d ∈ s.buffer.reverse ++ c :: rest, isQuote d = false)
    (parsed : g.read false a s (c :: rest) = .ok t) :
    ∃ (b : Assembly m C) (next : Scan m C), g.read false b next rest = .ok t ∧
      (∀ d ∈ next.buffer.reverse ++ rest, isQuote d = false) ∧
      b.groups.length + (if c = ')' then 1 else 0) = a.groups.length + if c = '(' then 1 else 0 := by
  obtain ⟨before, _, behind⟩ : (∀ d ∈ s.buffer.reverse, isQuote d = false) ∧ isQuote c = false ∧
      ∀ d ∈ rest, isQuote d = false := by
    simpa only [List.forall_mem_append, List.forall_mem_cons] using unquoted
  rcases of_read_cons parsed with ⟨next, more, later⟩ | ⟨p, found, done | ⟨b, takes, later⟩⟩
  · refine ⟨a, next, later, fun d member => ?_, ?_⟩
    · obtain ⟨passed, same, _⟩ := start_of_more more
      refine unquoted d ?_
      rw [same]
      exact List.mem_append_right _ member
    · have notOpening : c ≠ '(' := by
        rintro rfl
        cases (act_opening opening before rest).symm.trans more
      have notClosing : c ≠ ')' := by
        rintro rfl
        cases (act_closing closing before rest).symm.trans more
      rw [if_neg notOpening, if_neg notClosing]
  · exact absurd done.done.1 (step_found ((step_eq_act ..).trans found)).2
  · refine ⟨b, after p, later, fun d member => ?_, ?_⟩
    · rw [after_eq] at member
      exact behind d member
    · rcases takes.length_groups with ⟨stop, level⟩ | ⟨stop, level⟩ | ⟨notOpening, notClosing, level⟩
      · obtain ⟨rfl, _⟩ := phrase_of_opening found stop
        exact level
      · obtain ⟨rfl, _⟩ := phrase_of_closing found stop
        exact level
      · have other : c ≠ '(' := by
          rintro rfl
          cases (act_opening opening before rest).symm.trans found
          exact notOpening rfl
        have other' : c ≠ ')' := by
          rintro rfl
          cases (act_closing closing before rest).symm.trans found
          exact notClosing rfl
        rw [if_neg other, if_neg other', level]

/-- In a text that has a tree, closing brackets never outnumber the opening ones by more than the groups
that were open before, and at the end none is open. -/
theorem read_levels {text : List Char} {a : Assembly m C} {t : Tree m C}
    (unquoted : ∀ d ∈ s.buffer.reverse ++ text, isQuote d = false)
    (parsed : g.read false a s text = .ok t) :
    (∀ first, first <+: text → first.count ')' ≤ first.count '(' + a.groups.length) ∧
      text.count ')' = text.count '(' + a.groups.length := by
  induction text generalizing a s with
  | nil =>
    obtain ⟨_, groups, _⟩ := (of_read_nil parsed).done
    rw [groups]
    refine ⟨fun first within => ?_, rfl⟩
    rw [List.prefix_nil.mp within]
    exact Nat.le_refl _
  | cons c rest ih =>
    obtain ⟨b, next, later, unquoted', level⟩ := read_level opening closing unquoted parsed
    obtain ⟨ahead, even⟩ := ih unquoted' later
    refine ⟨fun first within => ?_, ?_⟩
    · rcases List.prefix_cons_iff.mp within with rfl | ⟨read, rfl, start⟩
      · exact Nat.zero_le _
      · have lower := ahead read start
        simp only [List.count_cons, beq_iff_eq]
        omega
    · simp only [List.count_cons, beq_iff_eq]
      omega

theorem balanced_of_read {start : Nat} {text : List Char} {t : Tree m C}
    (unquoted : ∀ c ∈ text, isQuote c = false)
    (parsed : g.read false .empty (.startingAt false start) text = .ok t) : Balanced text := by
  obtain ⟨ahead, even⟩ := read_levels opening closing (s := .startingAt false start) unquoted parsed
  exact ⟨ahead, even⟩

end

end Scan

namespace Compiler

variable {σ : Type} {v : Vocabulary (StateM σ) C} {spacing : Spacing} {c : Compiler (StateM σ) C}
  {text : String}

/-- If no token contains a bracket and the text no quote, only a balanced text has a tree. An error names
the first closing bracket that matches no opening one, or the last opening bracket that matches no closing
one. -/
theorem brackets_match (opening : v.Avoids '(') (closing : v.Avoids ')')
    (unquoted : ∀ c ∈ text.toList, isQuote c = false) (reached : Reached (ofVocabulary v spacing) c)
    (state : σ) :
    (∀ t, c.result text 0 false state = .ok t → Balanced text.toList) ∧
      (∀ position, c.result text 0 false state = .error (.unexpectedCloseBracket position) →
        ∃ before behind, text.toList = before ++ ')' :: behind ∧ byteLength before = position ∧
          LacksOpening before ∧
            ∀ earlier later, before = earlier ++ ')' :: later → ¬LacksOpening earlier) ∧
      ∀ position, c.result text 0 false state = .error (.unclosedBracket position) →
        ∃ before behind, text.toList = before ++ '(' :: behind ∧ byteLength before = position ∧
          LacksClosing behind ∧
            ∀ earlier later, behind = earlier ++ '(' :: later → ¬LacksClosing later := by
  have opening := Grammar.ofVocabulary_avoids opening spacing
  have closing := Grammar.ofVocabulary_avoids closing spacing
  refine ⟨fun t given => ?_, fun position refused => ?_, fun position refused => ?_⟩
  · obtain ⟨parsed, _, parses, _⟩ := reached.folds_of_result given
    rw [Grammar.parse_zero] at parses
    exact Scan.balanced_of_read opening closing unquoted parses
  · have parses := reached.result_eq_error.mp refused
    rw [Grammar.parse_zero] at parses
    obtain ⟨before, behind, t, split, place, whole, _⟩ := Scan.read_unmatched closing parses
    have balanced := Scan.balanced_of_read opening closing
      (fun c member => unquoted c (by rw [split]; exact List.mem_append_left _ member)) whole
    refine ⟨before, behind, split, (place.trans (Nat.zero_add _)).symm, balanced.lacksOpening, ?_⟩
    rintro earlier later rfl
    exact balanced.not_lacksOpening
  · have parses := reached.result_eq_error.mp refused
    rw [Grammar.parse_zero] at parses
    rcases Scan.read_unclosed parses with ⟨inner, group, outer, _, groups, _⟩ |
      ⟨before, behind, t, split, place, whole⟩
    · exact absurd groups.symm (by simp [Assembly.empty])
    · have balanced := Scan.balanced_of_read opening closing
        (fun c member => unquoted c (by
          rw [split]
          exact List.mem_append_right _ (List.mem_cons_of_mem _ member))) whole
      refine ⟨before, behind, split, (place.trans (Nat.zero_add _)).symm, balanced.lacksClosing, ?_⟩
      rintro earlier later rfl
      exact balanced.not_lacksClosing

/-- The first text is balanced, the second closes a bracket too much, the third one too few. -/
theorem brackets_match_nested :
    Balanced "next + ((1) + (2 + é))".toList ∧
      (∃ before behind, "(next) + 1) + (2))".toList = before ++ ')' :: behind ∧ byteLength before = 10 ∧
        LacksOpening before ∧ ∀ earlier later, before = earlier ++ ')' :: later → ¬LacksOpening earlier) ∧
      ∃ before behind, "((1 + (2) + (3)".toList = before ++ '(' :: behind ∧ byteLength before = 1 ∧
        LacksClosing behind ∧
          ∀ earlier later, behind = earlier ++ '(' :: later → ¬LacksClosing later := by
  have opening : Vocabulary.counter.Avoids '(' := Vocabulary.counter_avoids (by decide) (by decide)
  have closing : Vocabulary.counter.Avoids ')' := Vocabulary.counter_avoids (by decide) (by decide)
  have new : ∀ spacing, Reached (ofVocabulary .counter spacing) (ofVocabulary .counter spacing) :=
    fun _ => .start
  have unquoted : ∀ text : List Char, text.any isQuote = false → ∀ c ∈ text, isQuote c = false :=
    fun _ none c member => Bool.eq_false_iff.mpr (List.any_eq_false.mp none c member)
  refine ⟨?_, ?_, ?_⟩
  · exact (brackets_match opening closing (unquoted _ rfl) (new .wordsOnly) 7).1 _ rfl
  · exact (brackets_match opening closing (unquoted _ rfl) (new .optional) 7).2.1 10 rfl
  · exact (brackets_match opening closing (unquoted _ rfl) (new .always) 7).2.2 1 rfl

end Compiler

end Formula
