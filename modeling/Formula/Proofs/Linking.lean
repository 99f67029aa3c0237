import Formula.Proofs.Delimited
import Formula.Proofs.Grouping

/-!
# Operands in a row

Operands with a binary operator between blanks from each to the next. An operator that is as loose as
those before it goes to the end of the spine, so that the operands behind it are on its right.
-/

namespace Formula

variable {m : Type → Type} {C : Type}

namespace Spine

/-- Whether no operator on the spine is tighter than this priority. -/
def Loose (priority : Nat) : Spine m C → Prop
  | .hole => True
  | .binary _ bound _ right => priority ≤ bound ∧ right.Loose priority

/-- Puts an operator with its left operand into the place at the end. -/
def push (op : Operator m C) (priority : Nat) (left : Tree m C) : Spine m C → Spine m C
  | .hole => .binary op priority left .hole
  | .binary above bound first right => .binary above bound first (right.push op priority left)

variable {s : Spine m C} {op : Operator m C} {priority : Nat} {t u : Tree m C}

theorem append_fill (atom : t.IsAtom) (loose : s.Loose priority) :
    (s.fill t).append op priority = s.push op priority t := by
  induction s with
  | hole =>
    cases t with
    | binary => exact False.elim atom
    | _ => rfl
  | binary above bound left right ih =>
    rw [fill, Tree.append, if_pos loose.1, ih loose.2]
    rfl

theorem fill_push : (s.push op priority t).fill u = s.fill (.binary op priority t u) := by
  induction s with
  | hole => rfl
  | binary above bound left right ih => rw [push, fill, ih, fill]

theorem Loose.push (loose : s.Loose priority) : (s.push op priority t).Loose priority := by
  induction s with
  | hole => exact ⟨Nat.le_refl priority, trivial⟩
  | binary above bound left right ih => exact ⟨loose.1, ih loose.2⟩

end Spine

/-- Whether a piece of text is read as this tree before `behind`, where an operand can stand and no
operator before it is tighter. -/
def Grammar.ReadsRow (g : Grammar m C) (priority : Nat) (piece : List Char) (t : Tree m C)
    (behind : List Char) : Prop :=
  ∀ inside groups (spine : Spine m C) (s : Scan m C), spine.Loose priority → s.Fresh → s.unary = [] →
    ∃ start, g.read inside ⟨groups, .awaiting spine⟩ s (piece ++ behind) =
      g.read inside ⟨groups, .complete (spine.fill t)⟩ (.startingAt true start) behind

namespace Grammar

variable {g : Grammar m C} {v : Vocabulary m C} {spacing : Spacing} {priority : Nat}
  {piece more behind : List Char} {t u : Tree m C} {entry : Entry m C}

theorem ReadsAs.row (reads : g.ReadsAs piece t behind) : g.ReadsRow priority piece t behind := by
  intro inside groups spine s _ fresh unary
  have alone := reads inside groups spine s fresh
  rw [unary] at alone
  exact alone

theorem ReadsRow.within (reads : g.ReadsRow priority piece t behind) : g.ReadsWithin piece t behind :=
  fun inside groups start =>
    reads inside groups .hole _ trivial (Scan.fresh_startingAt start) rfl

theorem ReadsAs.link (clear : v.Clear) (stands : (Grammar.ofVocabulary v spacing).Stands entry) (atom : t.IsAtom)
    (first : (Grammar.ofVocabulary v spacing).ReadsAs piece t
      (' ' :: (entry.token ++ ' ' :: (more ++ behind))))
    (rest : (Grammar.ofVocabulary v spacing).ReadsRow entry.priority more u behind) :
    (Grammar.ofVocabulary v spacing).ReadsRow entry.priority
      (piece ++ ' ' :: (entry.token ++ ' ' :: more)) (.binary entry.op entry.priority t u) behind := by
  intro inside groups spine s loose fresh unary
  have text : piece ++ ' ' :: (entry.token ++ ' ' :: more) ++ behind =
      piece ++ ' ' :: (entry.token ++ ' ' :: (more ++ behind)) := by
    simp only [List.append_assoc, List.cons_append]
  have blankFree := ofVocabulary_avoids (clear.blank ' ' rfl) spacing
  obtain ⟨start, operand⟩ := first.row inside groups spine s loose fresh unary
  obtain ⟨next, operator⟩ := Scan.read_operator clear stands (spine.fill t) groups start (more ++ behind)
  obtain ⟨final, others⟩ := rest inside groups (spine.push entry.op entry.priority t)
    { Scan.startingAt false next with buffer := [' '] } loose.push ⟨rfl, Or.inr rfl⟩ rfl
  refine ⟨final, ?_⟩
  rw [text, operand, operator, Spine.append_fill atom loose, Scan.read_blank blankFree rfl rfl, others,
    Spine.fill_push]

end Grammar

end Formula
