import Formula.Tree.Basic

/-!
# Evaluation

A tree is evaluated against a context, its left operands before the right ones. A closure is what is
left of a tree when it is taken apart once and for all; it runs without a context.
-/

namespace Formula

/-- A formula that is ready to be called any number of times. -/
abbrev Closure (m : Type → Type) :=
  Unit → m Value

namespace Tree

variable {m : Type → Type} [Monad m] {C : Type}

def eval (context : Option C) : Tree m C → m Value
  | .leaf value => pure value
  | .constant op => op.run [] context
  | .unary op operand => do
    let v ← operand.eval context
    op.run [v] context
  | .group inner => inner.eval context
  | .binary op _ left right => do
    let a ← left.eval context
    let b ← right.eval context
    op.run [a, b] context

def toClosure : Tree m C → Closure m
  | .leaf value => fun _ => pure value
  | .constant op => fun _ => op.run [] none
  | .unary op operand =>
    let call := operand.toClosure
    fun _ => do op.run [← call ()] none
  | .group inner => inner.toClosure
  | .binary op _ left right =>
    let callLeft := left.toClosure
    let callRight := right.toClosure
    fun _ => do
      let a ← callLeft ()
      let b ← callRight ()
      op.run [a, b] none

/-- A closure does what evaluation without a context does. -/
theorem toClosure_eq_eval (t : Tree m C) : t.toClosure () = t.eval none := by
  induction t with
  | leaf | constant => rfl
  | unary op operand ih => rw [toClosure, eval, ih]
  | group inner ih => exact ih
  | binary op priority left right leftIh rightIh => rw [toClosure, eval, leftIh, rightIh]

/-- Evaluates, without a context, each largest part of the tree that is foldable, and puts its value
in its place. -/
def fold : Tree m C → m (Tree m C)
  | .leaf value => pure (.leaf value)
  | .constant op => if op.foldable then .leaf <$> op.run [] none else pure (.constant op)
  | .unary op operand =>
    if (Tree.unary op operand).isFoldable then .leaf <$> (Tree.unary op operand).eval none
    else .unary op <$> operand.fold
  | .group inner =>
    if inner.isFoldable then .leaf <$> inner.eval none else .group <$> inner.fold
  | .binary op priority left right =>
    if (Tree.binary op priority left right).isFoldable then
      .leaf <$> (Tree.binary op priority left right).eval none
    else do
      let a ← left.fold
      let b ← right.fold
      return .binary op priority a b

end Tree

end Formula
