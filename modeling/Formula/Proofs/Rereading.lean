import Formula.Proofs.Linking
import Formula.Proofs.Prefixes
import Formula.Tree.Eval

/-!
# Rereading

A piece of text is read again as a tree if, wherever an operand can stand, it is read as an operand of
the same values. Brackets around such pieces and operators make one of them.
-/

namespace Formula

variable {C : Type}

namespace Tree

@[simp] theorem eval_leaf (v : Value) (context : Option C) : (leaf v : Tree Id C).eval context = v :=
  rfl

@[simp] theorem eval_unary (op : Operator Id C) (t : Tree Id C) (context : Option C) :
    (unary op t).eval context = op.run [t.eval context] context :=
  rfl

@[simp] theorem eval_binary (op : Operator Id C) (priority : Nat) (t u : Tree Id C) (context : Option C) :
    (binary op priority t u).eval context = op.run [t.eval context, u.eval context] context :=
  rfl

end Tree

/-- Whether a piece of text is read as one operand before anything that can stand behind it, and that
operand has the values of the tree. -/
def Grammar.Rereads (g : Grammar Id C) (piece : List Char) (t : Tree Id C) : Prop :=
  ∃ u : Tree Id C, u.IsAtom ∧ (∀ behind, g.Delimits behind → g.ReadsAs piece u behind) ∧
    ∀ context, u.eval context = t.eval context

namespace Grammar.Rereads

variable {g : Grammar Id C} {v : Vocabulary Id C} {spacing : Spacing} {piece more : List Char}
  {t u : Tree Id C} {entry : Entry Id C}

theorem enclosed (opening : g.Avoids '(') (closing : g.Avoids ')')
    (reads : ∀ behind, g.ReadsWithin piece u (')' :: behind))
    (value : ∀ context, u.eval context = t.eval context) : g.Rereads ('(' :: (piece ++ [')'])) t :=
  ⟨.group u, trivial, fun behind _ => (reads behind).group opening closing, value⟩

theorem congr (rereads : g.Rereads piece t) (same : ∀ context, t.eval context = u.eval context) :
    g.Rereads piece u := by
  obtain ⟨w, atom, reads, value⟩ := rereads
  exact ⟨w, atom, reads, fun context => (value context).trans (same context)⟩

theorem group (clear : v.Clear) (rereads : (Grammar.ofVocabulary v spacing).Rereads piece t) :
    (Grammar.ofVocabulary v spacing).Rereads ('(' :: (piece ++ [')'])) (.group t) := by
  obtain ⟨u, _, reads, value⟩ := rereads
  have opening := ofVocabulary_avoids clear.opening spacing
  have closing := ofVocabulary_avoids clear.closing spacing
  exact enclosed opening closing (fun behind => (reads _ (.closing behind)).within) value

theorem unary (legible : v.Legible spacing) (member : entry ∈ Entry.table v.unary)
    (some : entry.token ≠ []) (rereads : (Grammar.ofVocabulary v spacing).Rereads piece t) :
    (Grammar.ofVocabulary v spacing).Rereads ('(' :: (entry.token ++ ' ' :: piece ++ [')']))
      (.unary entry.op t) := by
  obtain ⟨u, _, reads, value⟩ := rereads
  have opening := ofVocabulary_avoids legible.clear.opening spacing
  have closing := ofVocabulary_avoids legible.clear.closing spacing
  refine enclosed opening closing (u := .unary entry.op u) (fun behind => ?_) fun context => ?_
  · exact (legible.reads_unary member some (reads _ (.closing behind))).within
  · rw [Tree.eval_unary, Tree.eval_unary, value]

theorem binary (clear : v.Clear) (stands : (Grammar.ofVocabulary v spacing).Stands entry)
    (left : (Grammar.ofVocabulary v spacing).Rereads piece t)
    (right : (Grammar.ofVocabulary v spacing).Rereads more u) :
    (Grammar.ofVocabulary v spacing).Rereads
      ('(' :: (piece ++ ' ' :: (entry.token ++ ' ' :: more) ++ [')']))
      (.binary entry.op entry.priority t u) := by
  obtain ⟨a, atom, readsLeft, valueLeft⟩ := left
  obtain ⟨b, _, readsRight, valueRight⟩ := right
  have opening := ofVocabulary_avoids clear.opening spacing
  have closing := ofVocabulary_avoids clear.closing spacing
  refine enclosed opening closing (u := .binary entry.op entry.priority a b) (fun behind => ?_)
    fun context => ?_
  · have first := readsLeft _ (.binary stands (more ++ ')' :: behind))
    exact (first.link clear stands atom (readsRight _ (.closing behind)).row).within
  · rw [Tree.eval_binary, Tree.eval_binary, valueLeft, valueRight]

end Grammar.Rereads

end Formula
