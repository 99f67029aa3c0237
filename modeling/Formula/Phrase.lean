import Formula.Grammar
import Formula.Text.Blank
import Formula.Text.Bytes
import Formula.Value.Literal

/-!
# Phrases

A text is a row of phrases: unary operators, an operand, and the stop that ends it. The text since
the last token, the buffer, grows character by character until it is a constant or a unary token, or
ends with a bracket or a binary token.
-/

namespace Formula

/-- What ends a phrase. -/
inductive Stop (m : Type → Type) (C : Type) where
  | ending
  | opening
  | closing
  | constant (entry : Entry m C)
  | binary (entry : Entry m C)

/-- Positions count bytes from the start of the text. -/
structure Phrase (m : Type → Type) (C : Type) where
  /-- The outermost first. -/
  unary : List (Operator m C)
  /-- The text before the stop, without blanks around it. -/
  operand : List Char
  operandStart : Nat
  stop : Stop m C
  stopStart : Nat
  /-- Where the next phrase starts. -/
  next : Nat

variable {m : Type → Type} {C : Type}

/-- A text that is read up to some character. -/
structure Scan (m : Type → Type) (C : Type) where
  /-- Whether the phrase before ended in an operand, a group or a constant, so that only a binary
  operator can follow. -/
  closed : Bool
  /-- The unary operators read, the innermost first. -/
  unary : List (Operator m C)
  /-- Where the buffer starts. -/
  start : Nat
  /-- The last character first. -/
  buffer : List Char

namespace Scan

/-- What a character does to a scan. -/
inductive Outcome (m : Type → Type) (C : Type) where
  | more (s : Scan m C)
  | found (p : Phrase m C)

def startingAt (closed : Bool) (start : Nat) : Scan m C :=
  ⟨closed, [], start, []⟩

/-- The phrase whose operand is `left`, the text from the start of the buffer to a stop of `length`
bytes. -/
def phrase (s : Scan m C) (left : List Char) (stop : Stop m C) (length : Nat) : Phrase m C :=
  { unary := s.unary.reverse
    operand := trim left
    operandStart := s.start + byteLength (left.takeWhile isBlank)
    stop
    stopStart := s.start + byteLength left
    next := s.start + byteLength left + length }

/-- The first entry whose token is all of `text`. -/
def whole? (spacing : Spacing) (entries : List (Entry m C)) (text rest : List Char) :
    Option (Entry m C) :=
  if text = [] then none
  else entries.find? fun entry =>
    entry.token == text && !(spacing.separates entry.word && rest.head?.any Char.isAlphanum)

def bracket? : Char → Option (Stop m C)
  | '(' => some .opening
  | ')' => some .closing
  | _ => none

/-- Whether an entry is the binary operator that ends the buffer, `reversed`. Its left side is no
open quote, and is empty only behind an operand. No longer token ends here, and none starts where it
does. -/
def endsWith (spacing : Spacing) (closed : Bool) (reversed rest : List Char) (entry : Entry m C) :
    Bool :=
  !entry.token.isEmpty && entry.token.reverse.isPrefixOf reversed &&
    let left := reversed.drop entry.token.length
    let operand := trim left.reverse
    (closed || !operand.isEmpty) && !isOpenQuote operand &&
      !entry.longerEnding.any (·.reverse.isPrefixOf reversed) &&
      !entry.longerStarting.any (·.isPrefixOf (entry.token ++ rest)) &&
      (!spacing.separates entry.word || (rest.head?.any isBlank && left.head?.any isBlank))

/-- Reads the character `c` before `rest`. Constants and unary operators are looked for in front of
an operand only. -/
def step (g : Grammar m C) (s : Scan m C) (c : Char) (rest : List Char) : Outcome m C :=
  let reversed := c :: s.buffer
  let token := if s.closed then [] else trim reversed.reverse
  match whole? g.spacing g.constants token rest with
  | some entry =>
    let left := reversed.reverse.takeWhile isBlank
    .found { s.phrase left (.constant entry) 0 with next := s.start + byteLength reversed }
  | none =>
  match whole? g.spacing g.unary token rest with
  | some entry =>
    .more ⟨s.closed, entry.op :: s.unary, s.start + byteLength reversed, []⟩
  | none =>
  match (bracket? c).filter fun _ => !isOpenQuote (trim s.buffer.reverse) with
  | some stop => .found (s.phrase s.buffer.reverse stop c.utf8Size)
  | none =>
  match g.binary.find? (endsWith g.spacing s.closed reversed rest) with
  | some entry =>
    .found
      (s.phrase (reversed.drop entry.token.length).reverse (.binary entry) (byteLength entry.token))
  | none => .more { s with buffer := reversed }

/-- The phrase that the end of the text ends. -/
def finish (s : Scan m C) : Phrase m C :=
  s.phrase s.buffer.reverse .ending 0

/-- The scan after a phrase. -/
def after (p : Phrase m C) : Scan m C :=
  match p.stop with
  | .closing | .constant _ => startingAt true p.next
  | .opening | .binary _ | .ending => startingAt false p.next

/-- The phrases of the rest of a text. -/
def phrases (g : Grammar m C) : Scan m C → List Char → List (Phrase m C)
  | s, [] => [s.finish]
  | s, c :: rest =>
    match s.step g c rest with
    | .more s => phrases g s rest
    | .found p => p :: phrases g (after p) rest

end Scan

end Formula
