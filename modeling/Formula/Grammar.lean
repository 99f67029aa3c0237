import Formula.Vocabulary

/-!
# Grammars

A grammar is a vocabulary prepared for scanning: each operator with its priority and with the longer
tokens of its list that could be meant instead.
-/

namespace Formula

/-- When a token must be separated from what stands around it. -/
inductive Spacing where
  /-- If it is a word. -/
  | wordsOnly
  | always
  | optional
deriving DecidableEq

namespace Spacing

def separates : Spacing → (word : Bool) → Bool
  | .wordsOnly, word => word
  | .always, _ => true
  | .optional, _ => false

def name : Spacing → String
  | .wordsOnly => "only_word_chars"
  | .always => "always"
  | .optional => "optional"

def ofName? : String → Option Spacing
  | "only_word_chars" => some .wordsOnly
  | "always" => some .always
  | "optional" => some .optional
  | _ => none

theorem ofName?_name (spacing : Spacing) : ofName? spacing.name = some spacing := by
  cases spacing <;> rfl

end Spacing

/-- Whether a token consists of ASCII letters and digits. -/
def isWord (token : List Char) : Bool :=
  !token.isEmpty && token.all Char.isAlphanum

structure Entry (m : Type → Type) (C : Type) where
  op : Operator m C
  /-- One more than the place in the list. -/
  priority : Nat
  token : List Char
  word : Bool
  /-- The longer tokens of the list that end with this one. -/
  longerEnding : List (List Char)
  /-- The longer tokens of the list that start with this one. -/
  longerStarting : List (List Char)

namespace Entry

variable {m : Type → Type} {C : Type}

def ofOperator (tokens : List (List Char)) (op : Operator m C) (place : Nat) : Entry m C :=
  let token := op.token.toList
  let longer := tokens.filter fun other => token.length < other.length
  { op
    priority := place + 1
    token
    word := isWord token
    longerEnding := longer.filter fun other => token.isSuffixOf other
    longerStarting := longer.filter fun other => token.isPrefixOf other }

def table (ops : List (Operator m C)) : List (Entry m C) :=
  let tokens := ops.map fun op => op.token.toList
  ops.zipIdx.map fun (op, place) => ofOperator tokens op place

end Entry

structure Grammar (m : Type → Type) (C : Type) where
  binary : List (Entry m C)
  unary : List (Entry m C)
  constants : List (Entry m C)
  spacing : Spacing

namespace Grammar

variable {m : Type → Type} {C : Type}

def ofVocabulary (vocabulary : Vocabulary m C) (spacing : Spacing) : Grammar m C where
  binary := Entry.table vocabulary.binary
  unary := Entry.table vocabulary.unary
  constants := Entry.table vocabulary.constants
  spacing

end Grammar

end Formula
