import Formula.CompileError
import Formula.Phrase
import Formula.Tree.Basic

/-!
# Assembly

Phrases are put together from left to right, beside a stack of the groups that are still open.
-/

namespace Formula

variable {m : Type → Type} {C : Type}

/-- A group that is open, and what waits for its tree. -/
structure OpenGroup (m : Type → Type) (C : Type) where
  position : Nat
  unary : List (Operator m C)
  spine : Spine m C

/-- The tree around a group that is complete. -/
def OpenGroup.close (g : OpenGroup m C) (inner : Tree m C) : Tree m C :=
  g.spine.fill (Tree.wrap g.unary (.group inner))

/-- What has been put together inside the innermost open group. -/
inductive Building (m : Type → Type) (C : Type) where
  | awaiting (spine : Spine m C)
  | complete (tree : Tree m C)

/-- A text put together up to some phrase. The innermost open group is the first. -/
structure Assembly (m : Type → Type) (C : Type) where
  groups : List (OpenGroup m C)
  building : Building m C

namespace Assembly

/-- How a phrase leaves an assembly: it goes on, or the tree is complete. -/
inductive Outcome (m : Type → Type) (C : Type) where
  | next (a : Assembly m C)
  | done (tree : Tree m C)

def empty : Assembly m C :=
  ⟨[], .awaiting .hole⟩

def dangling (operand : List Char) (position : Nat) : Except CompileError (Outcome m C) :=
  .error (.danglingOperand (String.ofList operand) position)

/-- A bracket closes the innermost open group. Without one it ends a text that is read from the
`inside` of a group, and is wrong in any other. -/
def close (inside : Bool) (groups : List (OpenGroup m C)) (tree : Tree m C) (position : Nat) :
    Except CompileError (Outcome m C) :=
  match groups with
  | g :: outer => .ok (.next ⟨outer, .complete (g.close tree)⟩)
  | [] => if inside then .ok (.done tree) else .error (.unexpectedCloseBracket position)

/-- At the end of the text no group may be open. -/
def finish (groups : List (OpenGroup m C)) (tree : Tree m C) : Except CompileError (Tree m C) :=
  match groups with
  | g :: _ => .error (.unclosedBracket g.position)
  | [] => .ok tree

/-- The tree when a phrase brings its operand, with the unary operators before it. -/
def operandTree (spine : Spine m C) (p : Phrase m C) : Tree m C :=
  spine.fill (Tree.wrap p.unary (.leaf (Value.ofOperand p.operand)))

/-- Adds a phrase. Behind a complete tree it may bring a binary operator but no operand. -/
def step (inside : Bool) (a : Assembly m C) (p : Phrase m C) :
    Except CompileError (Outcome m C) :=
  match a.building with
  | .awaiting spine =>
    match p.stop with
    | .opening =>
      if p.operand = [] then
        .ok (.next ⟨⟨p.stopStart, p.unary, spine⟩ :: a.groups, .awaiting .hole⟩)
      else dangling p.operand p.operandStart
    | .constant entry =>
      .ok (.next ⟨a.groups, .complete (spine.fill (Tree.wrap p.unary (.constant entry.op)))⟩)
    | .binary entry =>
      .ok (.next
        ⟨a.groups, .awaiting ((operandTree spine p).append entry.op entry.priority)⟩)
    | .closing => close inside a.groups (operandTree spine p) p.stopStart
    | .ending => .done <$> finish a.groups (operandTree spine p)
  | .complete tree =>
    if p.operand = [] then
      match p.stop with
      | .opening => dangling ['('] p.stopStart
      | .constant entry => dangling entry.token p.stopStart
      | .binary entry => .ok (.next ⟨a.groups, .awaiting (tree.append entry.op entry.priority)⟩)
      | .closing => close inside a.groups tree p.stopStart
      | .ending => .done <$> finish a.groups tree
    else dangling p.operand p.operandStart

/-- The tree when no phrase is left. -/
def stop (a : Assembly m C) : Except CompileError (Tree m C) :=
  match a.building with
  | .awaiting spine => finish a.groups (spine.fill (.leaf (.string "")))
  | .complete tree => finish a.groups tree

/-- Adds phrases until the tree is complete. -/
def run (inside : Bool) : Assembly m C → List (Phrase m C) → Except CompileError (Tree m C)
  | a, [] => a.stop
  | a, p :: rest =>
    match a.step inside p with
    | .ok (.next a) => run inside a rest
    | .ok (.done tree) => .ok tree
    | .error e => .error e

end Assembly

/-- The tree of a text from a byte offset on, as it is written. At an offset inside a character or
past the end nothing is left to read. -/
def Grammar.parse (g : Grammar m C) (text : String) (offset : Nat) :
    Except CompileError (Tree m C) :=
  let rest := (dropBytes? offset text.toList).getD []
  Assembly.empty.run (decide (0 < offset)) (Scan.phrases g (.startingAt false offset) rest)

end Formula
