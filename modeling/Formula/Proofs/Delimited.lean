import Formula.Proofs.Spaced

/-!
# Delimited operands

An operand in which nothing is recognized is read as a leaf before the end of the text, a closing bracket
or a binary operator between blanks.
-/

namespace Formula

variable {m : Type → Type} {C : Type}

/-- What can stand behind an operand without becoming a part of it. -/
inductive Grammar.Delimits (g : Grammar m C) : List Char → Prop where
  | ending : Delimits g []
  | closing (behind : List Char) : Delimits g (')' :: behind)
  | binary {entry : Entry m C} (stands : g.Stands entry) (behind : List Char) :
      Delimits g (' ' :: (entry.token ++ ' ' :: behind))

variable {v : Vocabulary m C} {spacing : Spacing} {piece behind : List Char}

/-- An operand counts as complete as soon as its end is seen. -/
theorem Scan.read_settled (clear : v.Clear) {s : Scan m C} {building : Building m C}
    (bounded : s.Bounded (.ofVocabulary v spacing)) (ready : s.Ready building)
    (delimits : (Grammar.ofVocabulary v spacing).Delimits behind) (inside : Bool)
    (groups : List (OpenGroup m C)) :
    (Grammar.ofVocabulary v spacing).read inside ⟨groups, building⟩ s behind =
      (Grammar.ofVocabulary v spacing).read inside
        ⟨groups, .complete (Assembly.treeWith building s.finish)⟩ (.startingAt true s.stopStart)
        behind := by
  cases delimits with
  | ending => exact read_ready_nil ready groups
  | closing behind =>
    exact read_ready_closing (Grammar.ofVocabulary_avoids clear.closing spacing) ready groups
  | binary stands behind =>
    have settled : (startingAt true s.stopStart : Scan m C).Bounded (.ofVocabulary v spacing) :=
      ⟨rfl, Or.inl rfl, nofun, nofun⟩
    have complete : (startingAt true s.stopStart : Scan m C).Ready
        (.complete (Assembly.treeWith building s.finish)) := ⟨rfl, fun _ => rfl⟩
    rw [read_spaced clear stands bounded ready, read_spaced clear stands settled complete]
    rfl

/-- Text in which nothing is recognized, and that is neither blank nor a token, is an operand. -/
theorem Grammar.reads_operand (clear : v.Clear)
    (quiet : ∀ buffer, (∀ d ∈ buffer, isBlank d) →
      Scan.Quiet (.ofVocabulary v spacing) false buffer piece behind)
    (trimmed : trim piece = piece) (nonempty : piece ≠ []) (unquoted : isOpenQuote piece = false)
    (other : ∀ entry ∈ Entry.table v.constants ++ Entry.table v.unary, entry.token ≠ piece)
    (delimits : (Grammar.ofVocabulary v spacing).Delimits behind) :
    (Grammar.ofVocabulary v spacing).ReadsAs piece (.leaf (Value.ofOperand piece)) behind := by
  intro inside groups spine s fresh
  have operand := (trim_reverse_append fresh.blank piece).trans trimmed
  have nothing : Scan.Quiet (.ofVocabulary v spacing) s.closed s.buffer piece behind := by
    rw [fresh.closed]
    exact quiet s.buffer fresh.blank
  let last : Scan m C := { s with buffer := piece.reverse ++ s.buffer }
  have bounded : last.Bounded (.ofVocabulary v spacing) := by
    refine ⟨?_, Or.inr ?_, fun _ => ?_, fun _ => ?_⟩ <;> rw [operand]
    · exact unquoted
    · exact nonempty
    · exact fun entry member => other entry (List.mem_append_left _ member)
    · exact fun entry member => other entry (List.mem_append_right _ member)
  have ready : last.Ready (.awaiting spine) := ⟨bounded.unquoted, nofun⟩
  have tree : Assembly.treeWith (.awaiting spine) last.finish =
      spine.fill (Tree.wrap s.unary.reverse (.leaf (Value.ofOperand piece))) := by
    simp only [Assembly.treeWith, Assembly.operandTree, Scan.finish, Scan.phrase, operand, last]
  refine ⟨last.stopStart, ?_⟩
  rw [Scan.read_quiet nothing, ← tree]
  exact Scan.read_settled clear bounded ready delimits inside groups

end Formula
