import Formula.Proofs.Effects
import Formula.Proofs.Placing
import Formula.Proofs.Refusing
import Formula.Proofs.Shifting

/-!
# Faults

An error names the place of what is wrong: the text behind a bracket that is never closed has a tree,
and so has the text before a closing bracket without a group.
-/

namespace Formula

variable {m : Type → Type} {σ C : Type}

namespace Assembly

/-- From the inside of a group a phrase that is no error does the same. -/
theorem Takes.inside {a : Assembly m C} {p : Phrase m C} {outcome : Outcome m C}
    (takes : Takes false a p outcome) : Takes true a p outcome := by
  refine takes_of_step ?_
  rcases step_inside a p with same | ⟨t, _, refused⟩
  · rw [same, step_of_takes takes]
  · rw [step_of_takes takes] at refused
    cases refused

/-- A phrase does not look at the outer groups. If a group is open behind it, the phrase has opened it,
or would have done the same to what is inside of that group. -/
theorem Takes.without {inside : Bool} {a b : Assembly m C} {p : Phrase m C}
    (takes : Takes inside a p (.next b)) {inner outer : List (OpenGroup m C)} {group : OpenGroup m C}
    (groups : b.groups = inner ++ group :: outer) :
    (p.stop = .opening ∧ group.position = p.stopStart ∧ (⟨inner, b.building⟩ : Assembly m C) = empty) ∨
      ∃ kept, a.groups = kept ++ group :: outer ∧
        Takes inside ⟨kept, a.building⟩ p (.next ⟨inner, b.building⟩) := by
  cases takes with
  | opening spine building stop bare =>
    cases inner with
    | nil =>
      have opened := (List.cons.inj groups).1
      exact Or.inl ⟨stop, by rw [← opened], rfl⟩
    | cons first kept =>
      obtain ⟨opened, outside⟩ := List.cons.inj groups
      refine Or.inr ⟨kept, outside, ?_⟩
      rw [← opened]
      exact .opening spine building stop bare
  | constant spine building entry stop =>
    have same : (⟨inner, a.building⟩ : Assembly m C).building = .awaiting spine := building
    exact Or.inr ⟨inner, groups, .constant spine same entry stop⟩
  | binary entry stop bare => exact Or.inr ⟨inner, groups, .binary entry stop bare⟩
  | closing closed others open' stop bare =>
    have outside : others = inner ++ group :: outer := groups
    refine Or.inr ⟨closed :: inner, by rw [open', outside]; rfl, ?_⟩
    exact .closing closed inner rfl stop bare

end Assembly

namespace Scan

variable {g : Grammar m C}

theorem read_done {inside : Bool} {a : Assembly m C} {s : Scan m C} {c : Char} {rest : List Char}
    {p : Phrase m C} {t : Tree m C} (found : s.act c (mark g s.closed s.buffer c rest) = .found p)
    (takes : Assembly.Takes inside a p (.done t)) : g.read inside a s (c :: rest) = .ok t := by
  rw [Grammar.read, phrases, step_eq_act, found]
  simp only [Assembly.run, Assembly.step_of_takes takes]

theorem read_ending {inside : Bool} {a : Assembly m C} {s : Scan m C} {t : Tree m C}
    (takes : Assembly.Takes inside a s.finish (.done t)) : g.read inside a s [] = .ok t := by
  rw [Grammar.read, phrases, Assembly.run]
  simp only [Assembly.step_of_takes takes]

/-- An operand that is not joined stands where the error says. -/
theorem read_dangling {inside : Bool} {text : List Char} {operand : String} {position : Nat}
    {a : Assembly m C} {s : Scan m C}
    (refused : g.read inside a s text = .error (.danglingOperand operand position)) :
    s.Shows text operand.toList position ∧ operand.toList ≠ [] := by
  induction text generalizing a s with
  | nil =>
    cases of_read_nil_error refused with
    | operand _ some =>
      rw [String.toList_ofList]
      exact ⟨shows_finish s, some⟩
    | opening _ stop | constant _ _ stop => cases stop
  | cons c rest ih =>
    rcases of_read_cons_error refused with ⟨next, more, later⟩ | ⟨p, found, refuses | ⟨b, _, later⟩⟩
    · exact ⟨(ih later).1.of_more more, (ih later).2⟩
    · cases refuses with
      | operand _ some =>
        rw [String.toList_ofList]
        exact ⟨shows_operand found, some⟩
      | opening _ stop =>
        rw [String.toList_ofList]
        exact ⟨shows_opening found stop, List.cons_ne_nil _ _⟩
      | constant _ entry stop =>
        rw [String.toList_ofList]
        exact shows_constant found stop
    · exact ⟨(ih later).1.of_found found, (ih later).2⟩

/-- Before a bracket without a group stands a whole text; read from the inside of a group, the text
ends there. -/
theorem read_unmatched (avoids : g.Avoids ')') {text : List Char} {position : Nat} {a : Assembly m C}
    {s : Scan m C} (refused : g.read false a s text = .error (.unexpectedCloseBracket position)) :
    ∃ before behind t, text = before ++ ')' :: behind ∧ position = s.placeBehind before ∧
      g.read false a s before = .ok t ∧ g.read true a s text = .ok t := by
  induction text generalizing a s with
  | nil =>
    cases of_read_nil_error refused with
    | unmatched _ _ stop => cases stop
  | cons c rest ih =>
    have same : ∀ before behind, rest = before ++ ')' :: behind →
        mark g s.closed s.buffer c before = mark g s.closed s.buffer c rest := by
      rintro before behind rfl
      exact (mark_before avoids (by decide) (by decide) ..).symm
    rcases of_read_cons_error refused with ⟨next, more, later⟩ | ⟨p, found, refuses | ⟨b, takes, later⟩⟩
    · obtain ⟨before, behind, t, split, place, whole, within⟩ := ih later
      refine ⟨c :: before, behind, t, congrArg _ split, ?_, ?_, ?_⟩
      · rw [place, placeBehind_of_more more]
      · rw [← whole]
        exact read_more (same before behind split ▸ more)
      · rw [read_more more, within]
    · cases refuses with
      | unmatched groups _ stop bare =>
        obtain ⟨rfl, rfl⟩ := phrase_of_closing found stop
        refine ⟨[], rest, Assembly.treeWith a.building s.finish, rfl, ?_, ?_, ?_⟩
        · rw [placeBehind, List.append_nil]
          rfl
        · exact read_ending (.ending groups rfl bare)
        · exact read_done found (.unmatched groups rfl stop bare)
    · obtain ⟨before, behind, t, split, place, whole, within⟩ := ih later
      refine ⟨c :: before, behind, t, congrArg _ split, ?_, ?_, ?_⟩
      · rw [place, placeBehind_after found]
      · rw [← whole]
        exact read_found (same before behind split ▸ found) takes
      · rw [read_found found takes.inside, within]

/-- Behind a bracket that is never closed stands a whole text. The bracket is one of the text, or that
of a group that is open before it. -/
theorem read_unclosed {text : List Char} {position : Nat} {a : Assembly m C} {s : Scan m C}
    (refused : g.read false a s text = .error (.unclosedBracket position)) :
    (∃ inner group outer t, a.groups = inner ++ group :: outer ∧ group.position = position ∧
        g.read false ⟨inner, a.building⟩ s text = .ok t) ∨
      ∃ before behind t, text = before ++ '(' :: behind ∧ position = s.placeBehind before ∧
        g.read false .empty (.startingAt false (position + 1)) behind = .ok t := by
  induction text generalizing a s with
  | nil =>
    cases of_read_nil_error refused with
    | unclosed group outer groups stop bare =>
      exact Or.inl ⟨[], group, outer, _, groups, rfl, read_ending (.ending rfl stop bare)⟩
  | cons c rest ih =>
    rcases of_read_cons_error refused with ⟨next, more, later⟩ | ⟨p, found, refuses | ⟨b, takes, later⟩⟩
    · rcases ih later with ⟨inner, group, outer, t, groups, place, whole⟩ |
        ⟨before, behind, t, split, place, whole⟩
      · exact Or.inl ⟨inner, group, outer, t, groups, place, (read_more more).trans whole⟩
      · refine Or.inr ⟨c :: before, behind, t, congrArg _ split, ?_, whole⟩
        rw [place, placeBehind_of_more more]
    · cases refuses with
      | unclosed group outer groups stop bare =>
        exact absurd stop (step_found ((step_eq_act ..).trans found)).2
    · rcases ih later with ⟨inner, group, outer, t, groups, place, whole⟩ |
        ⟨before, behind, t, split, place, whole⟩
      · rcases takes.without groups with ⟨stop, opened, fresh⟩ | ⟨kept, groups', takes'⟩
        · obtain ⟨rfl, rfl⟩ := phrase_of_opening found stop
          refine Or.inr ⟨[], rest, t, rfl, ?_, ?_⟩
          · rw [placeBehind, List.append_nil, ← place, opened]
            rfl
          · rw [fresh] at whole
            rw [← place, opened]
            exact whole
        · exact Or.inl ⟨kept, group, outer, t, groups', place, (read_found found takes').trans whole⟩
      · refine Or.inr ⟨c :: before, behind, t, congrArg _ split, ?_, whole⟩
        rw [place, placeBehind_after found]

end Scan

namespace Compiler

/-- Whether a text has a tree, whatever has been asked for before and whatever state it is compiled from. -/
def Accepts (first : Compiler (StateM σ) C) (text : String) : Prop :=
  ∀ c, Reached first c → ∀ fresh s, ∃ t, c.result text 0 fresh s = .ok t

theorem accepts_of_read {g : Grammar (StateM σ) C} {start : Nat} {text : List Char} {t : Tree (StateM σ) C}
    (whole : g.read false .empty (.startingAt false start) text = .ok t) :
    (ofGrammar g).Accepts (String.ofList text) := by
  have parsed : g.parse (String.ofList text) 0 = .ok t := by
    rw [Grammar.parse_zero, String.toList_ofList]
    exact Grammar.read_startingAt_eq_ok.mp whole
  exact fun _ reached => reached.exists_result parsed

end Compiler

/-- Whether an error points at what is wrong in a text for the compilers that come from a first one. -/
def CompileError.PointsAtFault (first : Compiler (StateM σ) C) (text : String) : CompileError → Prop
  | .unclosedBracket position =>
    ∃ before behind, text.toList = before ++ '(' :: behind ∧ byteLength before = position ∧
      first.Accepts (String.ofList behind)
  | .unexpectedCloseBracket position =>
    ∃ before behind, text.toList = before ++ ')' :: behind ∧ byteLength before = position ∧
      first.Accepts (String.ofList before)
  | .danglingOperand operand position =>
    operand ≠ "" ∧ ∃ before behind, text.toList = before ++ (operand.toList ++ behind) ∧
      byteLength before = position

namespace Compiler

/-- If no token contains a closing bracket, every error points at what is wrong, whatever has been asked for
before and whatever the operators do to their state. -/
theorem errors_point_at_fault {v : Vocabulary (StateM σ) C} (closing : v.Avoids ')') {spacing : Spacing}
    {c : Compiler (StateM σ) C} (reached : Reached (ofVocabulary v spacing) c) {text : String} {fresh : Bool}
    {s : σ} {e : CompileError} (refused : c.result text 0 fresh s = .error e) :
    e.PointsAtFault (ofVocabulary v spacing) text := by
  have read := reached.result_eq_error.mp refused
  rw [Grammar.parse_zero] at read
  have place : ∀ before, (Scan.startingAt false 0 : Scan (StateM σ) C).placeBehind before = byteLength before :=
    fun before => Nat.zero_add _
  cases e with
  | unclosedBracket position =>
    rcases Scan.read_unclosed read with ⟨inner, group, outer, _, groups, _⟩ |
      ⟨before, behind, t, split, there, whole⟩
    · exact absurd groups.symm (by simp [Assembly.empty])
    · exact ⟨before, behind, split, by rw [there, place], accepts_of_read whole⟩
  | unexpectedCloseBracket position =>
    have avoids := Grammar.ofVocabulary_avoids closing spacing
    obtain ⟨before, behind, t, split, there, whole, _⟩ := Scan.read_unmatched avoids read
    exact ⟨before, behind, split, by rw [there, place], accepts_of_read whole⟩
  | danglingOperand operand position =>
    obtain ⟨⟨before, behind, split, there⟩, some⟩ := Scan.read_dangling read
    refine ⟨?_, before, behind, split, by rw [there]; exact (Nat.zero_add _).symm⟩
    rintro rfl
    exact some rfl

/-- The compiler has been asked for another text before. -/
theorem errors_point_at_fault_unclosed :
    ∃ c, Reached (ofVocabulary .counter .always) c ∧
      c.result "1 + (2 + 'é" 0 false 7 = .error (.unclosedBracket 4) ∧
        (CompileError.unclosedBracket 4).PointsAtFault (ofVocabulary .counter .always) "1 + (2 + 'é" := by
  have closing : Vocabulary.counter.Avoids ')' := Vocabulary.counter_avoids (by decide) (by decide)
  have new : Reached (ofVocabulary .counter .always) (ofVocabulary .counter .always) := .start
  have refused : (Id.run (((ofVocabulary .counter .always).compileFrom "next + 1" 0 false).run 5)).1.2.result
      "1 + (2 + 'é" 0 false 7 = .error (.unclosedBracket 4) := rfl
  have asked := new.tree "next + 1" 0 false 5
  exact ⟨_, asked, refused, errors_point_at_fault closing asked refused⟩

end Compiler

end Formula
