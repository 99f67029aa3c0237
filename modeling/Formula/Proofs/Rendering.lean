import Formula.Proofs.Literals
import Formula.Proofs.Remembering
import Formula.Tree.Render

/-!
# Rendering

The text of a tree is read again as a tree of the same value. Its leaves are operands that have been
read before, which limits the numbers among them: where tokens need not be separated, none has a sign
or a point.
-/

namespace Formula

variable {C : Type} {v : Vocabulary Id C} {spacing : Spacing}

/-- Every literal of an operand is read again. -/
theorem Vocabulary.SpelledAsBuiltin.rereads_literal (spelled : v.SpelledAsBuiltin) (writes : v.Writes)
    {value : Value} (leaf : (Grammar.ofVocabulary v spacing).parts.leaf value) :
    (Grammar.ofVocabulary v spacing).Rereads value.literal (.leaf value) := by
  obtain ⟨text, rest, quiet, operand⟩ := leaf
  rcases Value.ofOperand_eq (trim text) with ⟨s, string⟩ | ⟨n, number⟩
  · rw [operand, string]
    exact Grammar.rereads_quote (spelled.legible spacing) writes s
  · have admits : spacing.Admits n := by
      by_cases always : spacing = .always
      · exact Or.inl always
      · exact Or.inr (spelled.number_of_quiet always quiet number)
    obtain ⟨isNumber, exact, _⟩ := Value.of_ofOperand_eq_number number
    rw [operand, number]
    exact Grammar.rereads_number (spelled.legible spacing) writes isNumber exact admits

theorem Vocabulary.SpelledAsBuiltin.rereads_constant (spelled : v.SpelledAsBuiltin) {op : Operator Id C}
    (constant : (Grammar.ofVocabulary v spacing).parts.constant op) :
    (Grammar.ofVocabulary v spacing).Rereads op.token.toList (.constant op) := by
  obtain ⟨entry, member, some, rfl, text, c, rest, quiet, token⟩ := constant
  have spelling := Entry.token_of_mem_table member
  have readable : spacing = .optional → entry.op.token ≠ "undefined" := by
    rintro rfl undefined
    rw [spelling, undefined] at token
    exact spelled.constant_of_quiet quiet token
  rw [← spelling]
  refine ⟨.constant entry.op, trivial, fun behind delimits => ?_, fun _ => rfl⟩
  exact (spelled.legible spacing).reads_constant member some readable delimits.boundary

/-- A tree made of what has been read is read again from its text. -/
theorem Tree.MadeOf.rereads (spelled : v.SpelledAsBuiltin) (writes : v.Writes) {t : Tree Id C}
    (made : t.MadeOf (Grammar.ofVocabulary v spacing).parts) :
    (Grammar.ofVocabulary v spacing).Rereads t.render t := by
  induction t with
  | leaf value => exact spelled.rereads_literal writes made
  | constant op => exact spelled.rereads_constant made
  | unary op operand ih =>
    obtain ⟨⟨entry, member, some, rfl⟩, inner⟩ := made
    have tokens : ∀ token ∈ v.unary.map Operator.token, token ≠ groupToken := by
      rw [spelled.unary]
      decide
    have prefixed : entry.op.token ≠ groupToken :=
      tokens _ (List.mem_map_of_mem (Entry.op_mem_of_mem_table member))
    have rereads := Grammar.Rereads.unary (spelled.legible spacing) member some (ih inner)
    rw [Entry.token_of_mem_table member] at rereads
    rw [render, if_neg prefixed]
    exact rereads
  | group inner ih => exact .group spelled.tidy.clear (ih made)
  | binary op priority left right leftIh rightIh =>
    obtain ⟨⟨entry, member, _, rfl, rfl⟩, onLeft, onRight⟩ := made
    have rereads := Grammar.Rereads.binary spelled.tidy.clear (spelled.tidy.stands member) (leftIh onLeft) (rightIh onRight)
    rw [Entry.token_of_mem_table member] at rereads
    have text : (binary entry.op entry.priority left right).render =
        '(' :: (left.render ++ ' ' :: (entry.op.token.toList ++ ' ' :: right.render) ++ [')']) := by
      simp only [render, List.cons_append, List.append_assoc]
    rw [text]
    exact rereads

/-- What is read again as an operand is a text of that value. -/
theorem Grammar.Rereads.parse {g : Grammar Id C} {t : Tree Id C} (rereads : g.Rereads t.render t) :
    ∃ u, g.parse t.expr 0 = .ok u ∧ ∀ context, u.eval context = t.eval context := by
  obtain ⟨u, _, reads, value⟩ := rereads
  exact ⟨u, (reads [] .ending).within.parse, value⟩

/-! ## The built-in operators -/

namespace Vocabulary

theorem builtin_writes_map (host : Host) (foldable : Bool) :
    ((builtin host : Vocabulary Id C).map (·.withFoldable foldable)).Writes where
  joined := ⟨_, List.mem_of_getElem? (i := 5) rfl, rfl, fun _ _ _ => rfl⟩
  number := ⟨_, List.mem_of_getElem? (i := 1) rfl, rfl, fun _ _ => rfl⟩

theorem All.map_withFoldable {v : Vocabulary Id C} (all : v.All Operator.IgnoresContext)
    (foldable : Bool) : (v.map (·.withFoldable foldable)).All Operator.IgnoresContext := by
  constructor
  · exact List.forall_mem_map.mpr all.binary
  · exact List.forall_mem_map.mpr all.unary
  · exact List.forall_mem_map.mpr all.constants

theorem unfoldable_map (v : Vocabulary Id C) (spacing : Spacing) :
    (Grammar.ofVocabulary (v.map (·.withFoldable false)) spacing).parts.Unfoldable := by
  have table : ∀ (ops : List (Operator Id C)), ∀ entry ∈ Entry.table (ops.map (·.withFoldable false)),
      entry.op.foldable = false := by
    intro ops entry member
    obtain ⟨op, _, same⟩ := List.mem_map.mp (Entry.op_mem_of_mem_table member)
    rw [← same]
    rfl
  constructor
  · rintro _ ⟨entry, member, _, rfl, _⟩
    exact table _ entry member
  · rintro _ ⟨entry, member, _, rfl⟩
    exact table _ entry member
  · rintro _ _ ⟨entry, member, _, rfl, _⟩
    exact table _ entry member

end Vocabulary

namespace Compiler

/-- A text that has a tree is compiled to one of the same values, whatever text has been compiled before. -/
theorem exists_answer_of_parse {v : Vocabulary Id C} (ignore : v.All Operator.IgnoresContext) {text : String}
    {t : Tree Id C} (parses : (Grammar.ofVocabulary v spacing).parse text 0 = .ok t) (earlier : String) :
    ∃ u : Tree Id C, (ofVocabulary v spacing).answer text = .ok u ∧
      (Id.run ((ofVocabulary v spacing).compile earlier)).2.answer text = .ok u ∧
        ∀ context, u.eval context = t.eval context := by
  have answer : (ofVocabulary v spacing).answer text = .ok (Id.run t.fold) :=
    answer_ofGrammar_eq_ok.mpr ⟨t, parses, rfl⟩
  obtain ⟨parsed, parses', _, value⟩ := (answer_ofVocabulary_eq_ok ignore).mp answer
  obtain rfl : t = parsed := Except.ok.inj (parses.symm.trans parses')
  exact ⟨_, answer, (answer_compile _ _ _).trans answer, value⟩

theorem exists_answer_standard (host : Host) {text : String} {t : Tree Id C}
    (parses : (Grammar.ofVocabulary (.builtin host) spacing).parse text 0 = .ok t) :
    ∃ u : Tree Id C, (standard host ⟨[], [], []⟩ spacing).answer text = .ok u ∧
      ∀ context, u.eval context = t.eval context := by
  obtain ⟨u, answer, _, value⟩ := exists_answer_of_parse (Vocabulary.builtin_ignoresContext host) parses ""
  rw [standard_eq]
  exact ⟨u, answer, value⟩

/-- A compiler of the built-in operators, none of which is applied ahead of evaluation. -/
def unfolding (host : Host) (spacing : Spacing) : Compiler Id C :=
  .ofVocabulary ((Vocabulary.builtin host).map (·.withFoldable false)) spacing

/-- The text of a tree has a tree of the same value, also for the compiler that remembers the first. -/
theorem rereads_expr (host : Host) (spacing : Spacing) (text : String) (t : Tree Id C)
    (compiled : (unfolding host spacing).answer text = .ok t) :
    ∃ u : Tree Id C, (unfolding host spacing).answer t.expr = .ok u ∧
      (Id.run ((unfolding host spacing).compile text)).2.answer t.expr = .ok u ∧
        ∀ context, u.eval context = t.eval context := by
  have spelled := Vocabulary.builtin_spelled_map (m := Id) (C := C) host false
  have ignore := (Vocabulary.builtin_ignoresContext (C := C) host).map_withFoldable false
  have unfoldable := Vocabulary.unfoldable_map (.builtin host : Vocabulary Id C) spacing
  obtain ⟨parsed, parses, rfl, _⟩ := (answer_ofVocabulary_eq_ok ignore).mp compiled
  have made := (Grammar.parse_madeOf parses).fold unfoldable
  obtain ⟨again, reparses, value⟩ := (made.rereads spelled (Vocabulary.builtin_writes_map host false)).parse
  obtain ⟨u, answer, remembered, value'⟩ := exists_answer_of_parse ignore reparses text
  exact ⟨u, answer, remembered, fun context => (value' context).trans (value context)⟩

/-- The operand contains both quotes. -/
theorem rereads_expr_quotes :
    ∃ t u : Tree Id Unit, (unfolding ⟨fun _ _ => .absent⟩ .optional).answer "- (2 + 'a\"'b')" = .ok t ∧
      (unfolding ⟨fun _ _ => .absent⟩ .optional).answer t.expr = .ok u ∧ u.eval none = t.eval none := by
  obtain ⟨t, compiled⟩ : ∃ t : Tree Id Unit, (unfolding ⟨fun _ _ => .absent⟩ .optional).answer
      "- (2 + 'a\"'b')" = .ok t := ⟨_, rfl⟩
  obtain ⟨u, answer, _, value⟩ := rereads_expr ⟨fun _ _ => .absent⟩ .optional _ t compiled
  exact ⟨t, u, compiled, answer, value none⟩

end Compiler

end Formula
