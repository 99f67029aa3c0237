import Formula.Operator

/-!
# Trees

The operands of each node are those that its kind has. A spine is a tree whose rightmost operand is
still to come.
-/

namespace Formula

inductive Tree (m : Type → Type) (C : Type) where
  | leaf (value : Value)
  | constant (op : Operator m C)
  | unary (op : Operator m C) (operand : Tree m C)
  /-- A tree in brackets. -/
  | group (inner : Tree m C)
  /-- The smaller the priority, the tighter the operator binds. -/
  | binary (op : Operator m C) (priority : Nat) (left right : Tree m C)

/-- Binary operators with their left operands, the outermost first, and a place for an operand at
the end. -/
inductive Spine (m : Type → Type) (C : Type) where
  | hole
  | binary (op : Operator m C) (priority : Nat) (left : Tree m C) (right : Spine m C)

variable {m : Type → Type} {C : Type}

/-- Puts a tree into the place at the end. -/
def Spine.fill (tree : Tree m C) : Spine m C → Tree m C
  | .hole => tree
  | .binary op priority left right => .binary op priority left (right.fill tree)

namespace Tree

instance : Inhabited (Tree m C) :=
  ⟨.leaf default⟩

/-- Adds a binary operator at the end. It takes for its left operand the largest tree on the right
edge that binds more tightly, so operators of equal priority group to the right. -/
def append (op : Operator m C) (priority : Nat) : Tree m C → Spine m C
  | .binary above bound left right =>
    if priority ≤ bound then .binary above bound left (right.append op priority)
    else .binary op priority (.binary above bound left right) .hole
  | tree => .binary op priority tree .hole

/-- Unary operators around a tree, the first outermost. -/
def wrap (ops : List (Operator m C)) (tree : Tree m C) : Tree m C :=
  ops.foldr .unary tree

/-- The token that stands for a pair of brackets. -/
def groupToken : String :=
  "()"

/-- The token of a node that is no leaf. -/
def token? : Tree m C → Option String
  | .leaf _ => none
  | .constant op | .unary op _ | .binary op .. => some op.token
  | .group _ => some groupToken

/-- The value of a leaf, or the token of another node. -/
def label : Tree m C → Value
  | .leaf value => value
  | .constant op | .unary op _ | .binary op .. => .string op.token
  | .group _ => .string groupToken

/-- Zero for all but binary nodes. -/
def priority : Tree m C → Nat
  | .binary _ priority _ _ => priority
  | _ => 0

def left? : Tree m C → Option (Tree m C)
  | .unary _ operand => some operand
  | .group inner => some inner
  | .binary _ _ left _ => some left
  | _ => none

def right? : Tree m C → Option (Tree m C)
  | .binary _ _ _ right => some right
  | _ => none

/-- All nodes: each before its children, the left before the right. -/
def nodes : Tree m C → List (Tree m C)
  | t@(.leaf _) | t@(.constant _) => [t]
  | t@(.unary _ operand) => t :: operand.nodes
  | t@(.group inner) => t :: inner.nodes
  | t@(.binary _ _ left right) => t :: left.nodes ++ right.nodes

/-- Whether every operator in the tree may be applied ahead of evaluation. -/
def isFoldable : Tree m C → Bool
  | .leaf _ => true
  | .constant op => op.foldable
  | .unary op operand => op.foldable && operand.isFoldable
  | .group inner => inner.isFoldable
  | .binary op _ left right => op.foldable && (left.isFoldable && right.isFoldable)

end Tree

end Formula
