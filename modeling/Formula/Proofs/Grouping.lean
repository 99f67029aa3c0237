import Formula.Tree.Basic

/-!
# Grouping

The items of a tree are its pieces in the order in which they are written. A tree is grouped if its
binary operators are nested by priority. Filling and extending a grouped spine keeps it grouped.
-/

namespace Formula

variable {m : Type → Type} {C : Type}

inductive Item (m : Type → Type) (C : Type) where
  | unary (op : Operator m C)
  | value (v : Value)
  | constant (op : Operator m C)
  | opening
  | closing
  | binary (op : Operator m C) (priority : Nat)

namespace Tree

def items : Tree m C → List (Item m C)
  | .leaf v => [.value v]
  | .constant op => [.constant op]
  | .unary op operand => .unary op :: operand.items
  | .group inner => .opening :: inner.items ++ [.closing]
  | .binary op priority left right => left.items ++ .binary op priority :: right.items

/-- Whether the tree can be an operand of any operator: it is not binary. -/
def IsAtom : Tree m C → Prop
  | .binary .. => False
  | _ => True

/-- The tree is not binary or binds more tightly than `bound`. -/
def Below (bound : Nat) : Tree m C → Prop
  | .binary _ priority _ _ => priority < bound
  | _ => True

/-- The tree is not binary or binds at least as tightly as `bound`. -/
def Within (bound : Nat) : Tree m C → Prop
  | .binary _ priority _ _ => priority ≤ bound
  | _ => True

/-- Unary operators wrap atoms. A binary operator has a tighter one on its left, and on its right one
that is tighter or as tight. -/
def Grouped : Tree m C → Prop
  | .leaf _ | .constant _ => True
  | .unary _ operand => operand.IsAtom ∧ operand.Grouped
  | .group inner => inner.Grouped
  | .binary _ priority left right =>
    left.Below priority ∧ right.Within priority ∧ left.Grouped ∧ right.Grouped

/-- The priorities of the binary operators that stand in no group. -/
def priorities : Tree m C → List Nat
  | .leaf _ | .constant _ | .unary .. | .group _ => []
  | .binary _ priority left right => left.priorities ++ priority :: right.priorities

theorem Below.within {bound : Nat} {t : Tree m C} (below : t.Below bound) : t.Within bound := by
  cases t with
  | binary => exact Nat.le_of_lt below
  | _ => trivial

theorem Grouped.priorities_within {t : Tree m C} (grouped : t.Grouped) {bound : Nat}
    (within : t.Within bound) : ∀ priority ∈ t.priorities, priority ≤ bound := by
  induction t generalizing bound with
  | binary op priority left right leftIh rightIh =>
    obtain ⟨below, onRight, leftGrouped, rightGrouped⟩ := grouped
    intro other member
    have root : priority ≤ bound := within
    simp only [priorities, List.mem_append, List.mem_cons] at member
    rcases member with inLeft | rfl | inRight
    · exact Nat.le_trans (leftIh leftGrouped below.within other inLeft) root
    · exact root
    · exact Nat.le_trans (rightIh rightGrouped onRight other inRight) root
  | _ => simp [priorities]

theorem Grouped.priorities_below {t : Tree m C} (grouped : t.Grouped) {bound : Nat}
    (below : t.Below bound) : ∀ priority ∈ t.priorities, priority < bound := by
  cases t with
  | binary op priority left right =>
    intro other member
    have root : priority < bound := below
    have within := grouped.priorities_within (Nat.le_refl priority) other member
    exact Nat.lt_of_le_of_lt within root
  | _ => simp [priorities]

/-- The root is the leftmost of the loosest operators. -/
theorem Grouped.root_loosest {op : Operator m C} {priority : Nat} {left right : Tree m C}
    (grouped : (Tree.binary op priority left right).Grouped) :
    (∀ other ∈ left.priorities, other < priority) ∧
      ∀ other ∈ right.priorities, other ≤ priority := by
  obtain ⟨below, within, leftGrouped, rightGrouped⟩ := grouped
  exact ⟨leftGrouped.priorities_below below, rightGrouped.priorities_within within⟩

end Tree

/-! ## Trees that are put together -/

def Spine.items : Spine m C → List (Item m C)
  | .hole => []
  | .binary op priority left right => left.items ++ .binary op priority :: right.items

def Spine.Within (bound : Nat) : Spine m C → Prop
  | .hole => True
  | .binary _ priority _ _ => priority ≤ bound

def Spine.Grouped : Spine m C → Prop
  | .hole => True
  | .binary _ priority left right =>
    left.Below priority ∧ right.Within priority ∧ left.Grouped ∧ right.Grouped

@[simp] theorem Spine.items_fill (s : Spine m C) (t : Tree m C) : (s.fill t).items = s.items ++ t.items := by
  induction s with
  | hole => rfl
  | binary op priority left right ih =>
    simp only [fill, Tree.items, items, ih, List.append_assoc, List.cons_append]

@[simp] theorem Tree.items_append (op : Operator m C) (priority : Nat) (t : Tree m C) :
    (t.append op priority).items = t.items ++ [.binary op priority] := by
  induction t with
  | binary above bound left right leftIh rightIh =>
    rw [append]
    split
    · simp only [Spine.items, items, rightIh, List.append_assoc, List.cons_append]
    · rfl
  | _ => rfl

@[simp] theorem Tree.items_wrap (ops : List (Operator m C)) (t : Tree m C) :
    (wrap ops t).items = ops.map .unary ++ t.items := by
  induction ops with
  | nil => rfl
  | cons op ops ih =>
    have first : (wrap (op :: ops) t).items = .unary op :: (wrap ops t).items := rfl
    rw [first, ih, List.map_cons, List.cons_append]

theorem Tree.isAtom_wrap (ops : List (Operator m C)) {t : Tree m C} (atom : t.IsAtom) :
    (wrap ops t).IsAtom := by
  cases ops with
  | nil => exact atom
  | cons op ops => trivial

theorem Tree.Grouped.wrap {t : Tree m C} (grouped : t.Grouped) (atom : t.IsAtom)
    (ops : List (Operator m C)) : (wrap ops t).Grouped := by
  induction ops with
  | nil => exact grouped
  | cons op ops ih => exact ⟨isAtom_wrap ops atom, ih⟩

theorem Tree.IsAtom.within {t : Tree m C} (atom : t.IsAtom) (bound : Nat) : t.Within bound := by
  cases t with
  | binary => exact False.elim atom
  | _ => trivial

theorem Spine.Within.fill {s : Spine m C} {bound : Nat} (within : s.Within bound) {t : Tree m C}
    (atom : t.IsAtom) : (s.fill t).Within bound := by
  cases s with
  | hole => exact atom.within bound
  | binary => exact within

theorem Spine.Grouped.fill {s : Spine m C} (grouped : s.Grouped) {t : Tree m C}
    (inner : t.Grouped) (atom : t.IsAtom) : (s.fill t).Grouped := by
  induction s with
  | hole => exact inner
  | binary op priority left right ih =>
    obtain ⟨below, within, leftGrouped, rightGrouped⟩ := grouped
    exact ⟨below, within.fill atom, leftGrouped, ih rightGrouped⟩

theorem Tree.Within.append {t : Tree m C} {bound priority : Nat} (within : t.Within bound)
    (fits : priority ≤ bound) (op : Operator m C) : (t.append op priority).Within bound := by
  cases t with
  | binary above root left right =>
    rw [Tree.append]
    split
    · exact within
    · exact fits
  | _ => exact fits

/-- The new operator comes below all that are as loose or looser, so what it takes for its left
operand is tighter. -/
theorem Tree.Grouped.append {t : Tree m C} (grouped : t.Grouped) (op : Operator m C)
    (priority : Nat) : (t.append op priority).Grouped := by
  induction t with
  | binary above bound left right leftIh rightIh =>
    obtain ⟨below, within, leftGrouped, rightGrouped⟩ := grouped
    rw [Tree.append]
    split
    · next fits => exact ⟨below, within.append fits op, leftGrouped, rightIh rightGrouped⟩
    · next looser =>
      exact ⟨Nat.lt_of_not_le looser, trivial, ⟨below, within, leftGrouped, rightGrouped⟩, trivial⟩
  | _ => exact ⟨trivial, trivial, grouped, trivial⟩

end Formula
