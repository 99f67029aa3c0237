import Formula.Value.Json

/-!
# Literals

How the text of an operand is read as a value, and how a value is written so that it can be read
back. Strings stand between quotes. What has no literal of its own is written as an operator applied
to a string.
-/

namespace Formula

def isQuote (c : Char) : Bool :=
  c == '"' || c == '\''

/-- Whether a text starts with a quote that does not end it. -/
def isOpenQuote : List Char → Bool
  | [] => false
  | quote :: rest => isQuote quote && rest.getLast? != some quote

namespace Value

def dropOpeningQuote : List Char → List Char
  | [] => []
  | c :: rest => if isQuote c then rest else c :: rest

def dropClosingQuote (text : List Char) : List Char :=
  if text.getLast?.any isQuote then text.dropLast else text

/-- The value of operand text. Text that starts with a quote is a string. A quote at either end is
left out, whether or not there is one at the other. -/
def ofOperand (text : List Char) : Value :=
  let body := dropClosingQuote (dropOpeningQuote text)
  if text.head?.any isQuote then .string (String.ofList body) else ofUnquoted body

/-- A piece between single quotes, unless it is empty. It is given last character first. -/
def quotedPiece (piece : List Char) : List (List Char) :=
  if piece = [] then [] else ['\'' :: piece.reverse ++ ['\'']]

/-- The pieces of a text that contains both quotes: what lies between single quotes, and those. The
piece that is read is kept last character first. -/
def quotedPieces (piece : List Char) : List Char → List (List Char)
  | [] => quotedPiece piece
  | c :: rest =>
    if c = '\'' then quotedPiece piece ++ ['"', '\'', '"'] :: quotedPieces [] rest
    else quotedPieces (c :: piece) rest

/-- A text between quotes that it does not contain; if it contains both, its pieces joined. -/
def quote (text : List Char) : List Char :=
  if '\'' ∉ text then '\'' :: text ++ ['\'']
  else if '"' ∉ text then '"' :: text ++ ['"']
  else '(' :: [' ', '^', ' '].intercalate (quotedPieces [] text) ++ [')']

/-- Whether a number is written by its text form. Those with an exponent would be taken apart. -/
def isPlain (n : Binary64) : Bool :=
  match n with
  | .nan => false
  | .infinity _ => true
  | .finite .. => ((Numeral.write n).dropWhile (· == '-')).all fun c => c.isDigit || c == '.'

def numberLiteral (n : Binary64) : List Char :=
  if n.isZero && n.isNegative then "(- 0)".toList
  else if isPlain n then Numeral.write n
  else "(+ '".toList ++ Numeral.write n ++ "')".toList

def literal : Value → List Char
  | .number n => numberLiteral n
  | .string s => quote s.toList
  | v@(.list _) | v@(.map _) =>
    match v.toJson? with
    | some json => "(JSON ".toList ++ quote json.chars ++ [')']
    | none => v.chars
  | v => v.chars

end Value

end Formula
