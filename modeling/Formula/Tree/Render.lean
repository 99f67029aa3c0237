import Formula.Tree.Basic
import Formula.Value.Literal

/-!
# Trees as text
-/

namespace Formula.Tree

variable {m : Type → Type} {C : Type}

/-- The formula of a tree, with brackets around every operator. A group has its own brackets, and so
has a unary operator with the token of a group. -/
def render : Tree m C → List Char
  | .leaf value => value.literal
  | .constant op => op.token.toList
  | .unary op operand =>
    if op.token = groupToken then '(' :: operand.render ++ [')']
    else '(' :: op.token.toList ++ ' ' :: operand.render ++ [')']
  | .group inner => '(' :: inner.render ++ [')']
  | .binary op _ left right =>
    '(' :: left.render ++ ' ' :: op.token.toList ++ ' ' :: right.render ++ [')']

def expr (t : Tree m C) : String :=
  String.ofList t.render

/-- What a dump shows for a node: its label, its priority, and whether it is foldable. -/
def caption (t : Tree m C) : String :=
  let name := t.label.text
  (if name = "" ∧ t.label matches .string _ then "empty" else name) ++
    ":" ++ t.priority.repr ++ (if t.isFoldable then " CON" else "")

/-- A node between its brackets. -/
def dumpNode (pad caption : String) (left right : List String) : List String :=
  (pad ++ "[node " ++ caption ++ "\n") :: left ++ right ++ [pad ++ "]\n"]

/-- The lines of a dump, one for each node and one for its closing bracket. Children are indented by
four blanks more than their parent; the places of those that a node does not have are marked. -/
def dumpLines (indent : Nat) (t : Tree m C) : List String :=
  let pad := String.ofList (List.replicate indent ' ')
  let missing := pad ++ "    null\n"
  match t with
  | .leaf _ => [pad ++ "[node " ++ t.caption ++ "]\n"]
  | .constant _ => dumpNode pad t.caption [missing] [missing]
  | .unary _ operand => dumpNode pad t.caption (operand.dumpLines (indent + 4)) [missing]
  | .group inner => dumpNode pad t.caption (inner.dumpLines (indent + 4)) [missing]
  | .binary _ _ left right =>
    dumpNode pad t.caption (left.dumpLines (indent + 4)) (right.dumpLines (indent + 4))

def dump (t : Tree m C) (indent : Nat) : String :=
  String.join (t.dumpLines indent)

end Formula.Tree
