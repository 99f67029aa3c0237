import Formula.Value.Basic

/-!
# Operators

What an operator does is given by its host: in any monad `m`, and with a context of any type `C` that
may be missing.
-/

namespace Formula

/-- How many operands an operator is meant for. -/
inductive Arity where
  | constant
  | unary
  | binary
deriving DecidableEq

/-- What is done for a token, with the values of operands and in a context. -/
abbrev Operation (m : Type → Type) (C : Type) :=
  String → List Value → Option C → m Value

structure Operator (m : Type → Type) (C : Type) where
  token : String
  arity : Arity
  /-- Whether it may be applied ahead of evaluation, when its operands are known. -/
  foldable : Bool
  /-- The token it receives is that of the node which is evaluated. -/
  exec : Operation m C

namespace Operator

variable {m : Type → Type} {C : Type}

/-- What a node of the operator does: it calls the function with the operator's token. -/
def run (op : Operator m C) : List Value → Option C → m Value :=
  op.exec op.token

/-- Here and below, `f` is not told the token. -/
def constant (token : String) (f : Option C → m Value) : Operator m C where
  token
  arity := .constant
  foldable := false
  exec _ _ context := f context

/-- A missing operand is absent. -/
def unary (token : String) (f : Value → Option C → m Value) : Operator m C where
  token
  arity := .unary
  foldable := false
  exec _ operands context := f (operands.getD 0 .absent) context

/-- Missing operands are absent. -/
def binary (token : String) (f : Value → Value → Option C → m Value) : Operator m C where
  token
  arity := .binary
  foldable := false
  exec _ operands context := f (operands.getD 0 .absent) (operands.getD 1 .absent) context

def withFoldable (op : Operator m C) (foldable : Bool) : Operator m C :=
  { op with foldable }

end Operator

end Formula
