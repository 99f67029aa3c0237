import Formula.CompileError
import Formula.Tree.Render

/-!
# Inspection

The form in which values, operators, trees and errors are shown to a developer.
-/

namespace Formula.Inspect

/-- Positional up to 16 digits before the point and 3 zeros after it, always with a point. -/
def layout : Layout where
  nan := "NaN"
  infinity := "inf"
  signedZero := true
  pointZero := true
  plusSign := false
  least := -4
  greatest := 15
  tie := .up

def escape (c : Char) : List Char :=
  if c = '"' then ['\\', '"']
  else if c = '\\' then ['\\', '\\']
  else if c = '\t' then ['\\', 't']
  else if c = '\r' then ['\\', 'r']
  else if c = '\n' then ['\\', 'n']
  else if c = '\x00' then ['\\', '0']
  else if c.toNat < 0x20 ∨ c.toNat = 0x7f then
    ['\\', 'u', '\x7b'] ++ Nat.toDigits 16 c.toNat ++ ['\x7d']
  else [c]

def string (s : String) : List Char :=
  '"' :: s.toList.flatMap escape ++ ['"']

def bool (b : Bool) : List Char :=
  if b then "true".toList else "false".toList

/-- A constructor with its argument. -/
def call (name : String) (argument : List Char) : List Char :=
  name.toList ++ '(' :: argument ++ [')']

/-- A record with its fields. -/
def record (name : String) (fields : List (List Char)) : List Char :=
  name.toList ++ " \x7b ".toList ++ [',', ' '].intercalate fields ++ " \x7d".toList

def field (name : String) (value : List Char) : List Char :=
  name.toList ++ ':' :: ' ' :: value

mutual

def value : Value → List Char
  | .absent => "Absent".toList
  | .null => "Null".toList
  | .bool b => call "Bool" (bool b)
  | .number n => call "Number" (layout.chars n)
  | .string s => call "String" (string s)
  | .list vs => call "List" ('[' :: [',', ' '].intercalate (items vs) ++ [']'])
  | .map es => call "Map" ('\x7b' :: [',', ' '].intercalate (entries es) ++ ['\x7d'])
  | .callable _ => "Callable(..)".toList

def items : List Value → List (List Char)
  | [] => []
  | v :: rest => value v :: items rest

def entries : List (String × Value) → List (List Char)
  | [] => []
  | (key, v) :: rest => (string key ++ ':' :: ' ' :: value v) :: entries rest

end

def arity : Arity → List Char
  | .constant => "Constant".toList
  | .unary => "Unary".toList
  | .binary => "Binary".toList

variable {m : Type → Type} {C : Type}

def operator (op : Operator m C) : List Char :=
  record "Operator"
    [field "token" (string op.token), field "arity" (arity op.arity),
      field "foldable" (bool op.foldable), ['.', '.']]

def tree (t : Tree m C) : List Char :=
  record "Node" [field "expr" (string t.expr), field "priority" (Nat.toDigits 10 t.priority)]

def error : CompileError → List Char
  | .unclosedBracket position =>
    record "UnclosedBracket" [field "position" (Nat.toDigits 10 position)]
  | .unexpectedCloseBracket position =>
    record "UnexpectedCloseBracket" [field "position" (Nat.toDigits 10 position)]
  | .danglingOperand operand position =>
    record "DanglingOperand"
      [field "operand" (string operand), field "position" (Nat.toDigits 10 position)]

end Formula.Inspect
