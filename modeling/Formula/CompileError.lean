/-!
# Compile errors

Only the structure of a text can be wrong.
-/

namespace Formula

/-- Positions count bytes. -/
inductive CompileError where
  /-- A bracket is never closed. -/
  | unclosedBracket (position : Nat)
  /-- A closing bracket stands outside of any group. -/
  | unexpectedCloseBracket (position : Nat)
  /-- An operand is not joined to the rest by an operator. -/
  | danglingOperand (operand : String) (position : Nat)
deriving DecidableEq

namespace CompileError

def message : CompileError → String
  | .unclosedBracket position =>
    "Brackets not closed properly: \"(\" at " ++ position.repr ++ " is never closed."
  | .unexpectedCloseBracket position => "Unexpected \")\" at " ++ position.repr ++ "."
  | .danglingOperand operand position =>
    "Operand \"" ++ operand ++ "\" at " ++ position.repr ++
      " is not joined to the expression by an operator."

def position : CompileError → Nat
  | .unclosedBracket position | .unexpectedCloseBracket position | .danglingOperand _ position =>
    position

end CompileError

end Formula
