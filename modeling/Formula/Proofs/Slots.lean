import Formula.Tree.Eval

/-!
# Slots

Trees whose nodes have two places for children, whatever their kind, either of which may be empty. An
operand goes into the first empty place on the right edge and an operator between two nodes of it,
without a look at what kinds of nodes these are. What is made of well-formed trees that way is
well-formed.
-/

namespace Formula

variable {m : Type → Type} {C : Type}

/-- A place for a node. A node without a function is a leaf. -/
inductive Slot (m : Type → Type) (C : Type) where
  | empty
  | node (label : Value) (priority : Nat) (exec : Option (Operation m C)) (foldable : Bool)
      (left right : Slot m C)

namespace Slot

def isEmpty : Slot m C → Bool
  | .empty => true
  | .node .. => false

def leaf (value : Value) : Slot m C :=
  .node value 0 none true .empty .empty

def ofOperator (op : Operator m C) (priority : Nat) (left : Slot m C) : Slot m C :=
  .node (.string op.token) priority (some op.exec) op.foldable left .empty

/-- What a pair of brackets does to the value of what is in them. -/
def passOn [Monad m] (_ : String) (operands : List Value) (_ : Option C) : m Value :=
  pure (operands.headD .absent)

def group [Monad m] (inner : Slot m C) : Slot m C :=
  .node (.string Tree.groupToken) 0 (some passOn) true inner .empty

def wrap (ops : List (Operator m C)) (operand : Slot m C) : Slot m C :=
  ops.foldr (fun op inner => ofOperator op 0 inner) operand

/-! ## Growing -/

/-- Puts an operand into the first empty place on the right edge. -/
def attach : Slot m C → (operand : Slot m C) → Slot m C
  | .empty, operand => operand
  | .node label priority exec foldable left right, operand =>
    .node label priority exec foldable left (right.attach operand)

/-- Puts a binary operator below all nodes on the right edge that bind at least as loosely. What is there
becomes its left operand. -/
def splice (op : Operator m C) (priority : Nat) : Slot m C → Slot m C
  | .empty => ofOperator op priority .empty
  | .node label bound exec foldable left right =>
    if exec.isSome && !right.isEmpty && priority ≤ bound then
      .node label bound exec foldable left (right.splice op priority)
    else ofOperator op priority (.node label bound exec foldable left right)

/-- An empty text is an empty string. -/
def finish : Slot m C → Slot m C
  | .empty => leaf (.string "")
  | root => root

/-! ## Running -/

def isFoldable : Slot m C → Bool
  | .empty => true
  | .node _ _ _ foldable left right => foldable && left.isFoldable && right.isFoldable

/-- A leaf has no token. -/
def token? : Slot m C → Option String
  | .node (.string token) _ (some _) _ _ _ => some token
  | _ => none

section

variable [Monad m]

/-- A node calls its function with its token and as many values as it has children in a row from the left. -/
def eval (context : Option C) : Slot m C → m Value
  | .empty => pure .absent
  | .node label _ none _ _ _ => pure label
  | n@(.node _ _ (some exec) _ left right) =>
    let token := n.token?.getD ""
    if left.isEmpty then exec token [] context
    else do
      let a ← left.eval context
      if right.isEmpty then exec token [a] context
      else do
        let b ← right.eval context
        exec token [a, b] context

/-- The token and the closures of the children are found before anything is called. -/
def toClosure : Slot m C → Closure m
  | .empty => fun _ => pure .absent
  | .node label _ none _ _ _ => fun _ => pure label
  | n@(.node _ _ (some exec) _ left right) =>
    let token := n.token?.getD ""
    if left.isEmpty then fun _ => exec token [] none
    else
      let callLeft := left.toClosure
      if right.isEmpty then fun _ => do exec token [← callLeft ()] none
      else
        let callRight := right.toClosure
        fun _ => do
          let a ← callLeft ()
          let b ← callRight ()
          exec token [a, b] none

/-- Whichever of its places are taken, the closure of a node does what evaluation without a context does. -/
theorem toClosure_eq_eval (n : Slot m C) : n.toClosure () = n.eval none := by
  induction n with
  | empty => rfl
  | node label priority exec foldable left right leftIh rightIh =>
    cases exec with
    | none => rfl
    | some exec =>
      rw [toClosure, eval]
      cases left.isEmpty with
      | true => rfl
      | false =>
        rw [← leftIh, ← rightIh]
        cases right.isEmpty <;> rfl

/-- Replaces each largest foldable part by a leaf with its value. -/
def collapse : Slot m C → m (Slot m C)
  | .empty => pure .empty
  | .node label priority exec foldable left right =>
    if (node label priority exec foldable left right).isFoldable then
      if exec.isSome then leaf <$> (node label priority exec foldable left right).eval none
      else pure (.node label priority exec foldable left right)
    else do
      let left ← left.collapse
      let right ← right.collapse
      return .node label priority exec foldable left right

end

end Slot

/-! ## Well-formed trees -/

section

variable [Monad m]

/-- The places of a tree. -/
def Tree.toSlot : Tree m C → Slot m C
  | .leaf value => .leaf value
  | .constant op => .ofOperator op 0 .empty
  | .unary op operand => .ofOperator op 0 operand.toSlot
  | .group inner => .group inner.toSlot
  | .binary op priority left right =>
    .node (.string op.token) priority (some op.exec) op.foldable left.toSlot right.toSlot

def Spine.toSlot : Spine m C → Slot m C
  | .hole => .empty
  | .binary op priority left right =>
    .node (.string op.token) priority (some op.exec) op.foldable left.toSlot right.toSlot

@[simp] theorem Tree.isEmpty_toSlot (t : Tree m C) : t.toSlot.isEmpty = false := by
  cases t <;> rfl

@[simp] theorem Tree.finish_toSlot (t : Tree m C) : t.toSlot.finish = t.toSlot := by
  cases t <;> rfl

@[simp] theorem Tree.toSlot_wrap (ops : List (Operator m C)) (t : Tree m C) :
    (wrap ops t).toSlot = Slot.wrap ops t.toSlot := by
  induction ops with
  | nil => rfl
  | cons op rest ih => exact congrArg (Slot.ofOperator op 0) ih

/-- The place at the end of a spine is the first empty one on its right edge. -/
@[simp] theorem Spine.toSlot_fill (spine : Spine m C) (t : Tree m C) :
    (spine.fill t).toSlot = spine.toSlot.attach t.toSlot := by
  induction spine with
  | hole => rfl
  | binary op priority left right ih => rw [fill, Tree.toSlot, toSlot, Slot.attach, ih]

/-- A node that is not binary has nothing on its right, so that no operator goes below it. -/
@[simp] theorem Tree.toSlot_append (t : Tree m C) (op : Operator m C) (priority : Nat) :
    (t.append op priority).toSlot = t.toSlot.splice op priority := by
  induction t with
  | binary above bound left right _ ih =>
    have binary : ((some above.exec).isSome && !right.toSlot.isEmpty && decide (priority ≤ bound)) =
        decide (priority ≤ bound) := by
      rw [isEmpty_toSlot]
      rfl
    rw [append, toSlot, Slot.splice, binary]
    by_cases loose : priority ≤ bound
    · rw [if_pos loose, if_pos (decide_eq_true loose), Spine.toSlot, ih]
    · rw [if_neg loose, if_neg (by rw [decide_eq_true_eq]; exact loose)]
      rfl
  | leaf | constant | unary | group => rfl

@[simp] theorem Tree.isFoldable_toSlot (t : Tree m C) : t.toSlot.isFoldable = t.isFoldable := by
  induction t with
  | leaf => rfl
  | constant op => simp only [toSlot, Slot.ofOperator, Slot.isFoldable, isFoldable, Bool.and_true]
  | unary op operand ih =>
    simp only [toSlot, Slot.ofOperator, Slot.isFoldable, isFoldable, ih, Bool.and_true]
  | group inner ih =>
    simp only [toSlot, Slot.group, Slot.isFoldable, isFoldable, ih, Bool.and_true, Bool.true_and]
  | binary op priority left right leftIh rightIh =>
    simp only [toSlot, Slot.isFoldable, isFoldable, leftIh, rightIh, Bool.and_assoc]

variable [LawfulMonad m]

@[simp] theorem Tree.eval_toSlot (context : Option C) (t : Tree m C) : t.toSlot.eval context = t.eval context := by
  induction t with
  | leaf | constant => rfl
  | unary op operand ih =>
    simp only [toSlot, Slot.ofOperator, Slot.eval, isEmpty_toSlot, ih, eval]
    rfl
  | group inner ih =>
    simp only [toSlot, Slot.group, Slot.eval, isEmpty_toSlot, ih, eval]
    exact bind_pure _
  | binary op priority left right leftIh rightIh =>
    simp only [toSlot, Slot.eval, isEmpty_toSlot, leftIh, rightIh, eval]
    rfl

@[simp] theorem Tree.toClosure_toSlot (t : Tree m C) : t.toSlot.toClosure = t.toClosure := by
  funext _
  rw [Slot.toClosure_eq_eval, eval_toSlot, toClosure_eq_eval]

/-- Unless it is folded as a whole, a tree that is no leaf collapses in its children. -/
theorem Tree.collapse_toSlot_of_node {t : Tree m C} {label : Value} {priority : Nat}
    {exec : Operation m C} {foldable : Bool} {left right : Slot m C}
    (unfolded : m (Tree m C)) (slot : t.toSlot = .node label priority (some exec) foldable left right)
    (folded : t.fold = if t.isFoldable then leaf <$> t.eval none else unfolded)
    (children : (do
        let left ← left.collapse
        let right ← right.collapse
        return .node label priority (some exec) foldable left right) = toSlot <$> unfolded) :
    t.toSlot.collapse = toSlot <$> t.fold := by
  have leaves : Slot.leaf <$> t.eval none = toSlot <$> (leaf (C := C) <$> t.eval none) :=
    comp_map (leaf (m := m) (C := C)) toSlot (t.eval none)
  rw [folded, slot, Slot.collapse, ← slot, isFoldable_toSlot, eval_toSlot, apply_ite (toSlot <$> ·)]
  exact ite_congr rfl (fun _ => leaves) fun _ => children

theorem Tree.collapse_toSlot (t : Tree m C) : t.toSlot.collapse = toSlot <$> t.fold := by
  induction t with
  | leaf value => exact (map_pure (f := m) toSlot (leaf value)).symm
  | constant op =>
    refine collapse_toSlot_of_node (pure (.constant op)) rfl rfl ?_
    simp only [Slot.collapse, pure_bind, map_pure]
    rfl
  | unary op operand ih =>
    refine collapse_toSlot_of_node _ rfl rfl ?_
    simp only [ih, Slot.collapse, pure_bind, map_eq_pure_bind, bind_assoc]
    rfl
  | group inner ih =>
    refine collapse_toSlot_of_node (group <$> inner.fold) rfl rfl ?_
    simp only [ih, Slot.collapse, pure_bind, map_eq_pure_bind, bind_assoc]
    rfl
  | binary op priority left right leftIh rightIh =>
    refine collapse_toSlot_of_node _ rfl rfl ?_
    simp only [leftIh, rightIh, pure_bind, map_eq_pure_bind, bind_assoc]
    rfl

end

end Formula
