import Formula.Json.Number

/-!
# Tokens of JSON text

The text is read character by character. What stands between quotes is taken whole and its escapes
are resolved at the closing quote; other words are taken up to the next character that cannot be
part of one.
-/

namespace Formula.Json

inductive Token where
  /-- One of `[`, `]`, `,`, `:` and the two braces. -/
  | mark (c : Char)
  | string (s : String)
  | null
  | bool (b : Bool)
  | number (n : Binary64)

/-- Where in a token a character stands. Characters seen are kept last first. -/
inductive Mode where
  | between
  | word (seen : List Char)
  | quoted (seen : List Char)
  /-- Right after a backslash between quotes. -/
  | escaped (seen : List Char)

/-- A text read up to some character: the tokens found, last first. -/
structure Lexer where
  mode : Mode
  found : List Token

/-- The 16 bits that four hexadecimal digits write. -/
def hexUnit? (a b c d : Char) : Option Nat := do
  let digit? := Numeral.digit? 16
  return (((← digit? a) * 16 + (← digit? b)) * 16 + (← digit? c)) * 16 + (← digit? d)

def shortEscape? : Char → Option Char
  | '"' => some '"'
  | '\\' => some '\\'
  | '/' => some '/'
  | 'b' => some '\x08'
  | 'f' => some '\x0c'
  | 'n' => some '\n'
  | 'r' => some '\r'
  | 't' => some '\t'
  | _ => none

def isHighSurrogate (unit : Nat) : Bool :=
  0xD800 ≤ unit && unit ≤ 0xDBFF

def isLowSurrogate (unit : Nat) : Bool :=
  0xDC00 ≤ unit && unit ≤ 0xDFFF

/-- Resolves escapes. Characters beyond 16 bits are written as two units, of which neither may
stand alone. -/
def unescape? : List Char → Option (List Char)
  | [] => some []
  | '\\' :: 'u' :: a :: b :: c :: d :: rest =>
    match hexUnit? a b c d with
    | none => none
    | some unit =>
      if isHighSurrogate unit then
        match rest with
        | '\\' :: 'u' :: e :: f :: g :: h :: rest =>
          match hexUnit? e f g h with
          | none => none
          | some low =>
            if isLowSurrogate low then
              (unescape? rest).map
                (Char.ofNat (0x10000 + (unit - 0xD800) * 0x400 + (low - 0xDC00)) :: ·)
            else none
        | _ => none
      else if isLowSurrogate unit then none
      else (unescape? rest).map (Char.ofNat unit :: ·)
  | '\\' :: c :: rest =>
    match shortEscape? c with
    | some plain => (unescape? rest).map (plain :: ·)
    | none => none
  | c :: rest => if c = '\\' then none else (unescape? rest).map (c :: ·)

def isWordChar (c : Char) : Bool :=
  c.isAlphanum || c == '+' || c == '-' || c == '.'

def wordToken? (word : List Char) : Option Token :=
  if word = "null".toList then some .null
  else if word = "true".toList then some (.bool true)
  else if word = "false".toList then some (.bool false)
  else (readNumber? word).map .number

namespace Lexer

/-- Reads a character that stands between tokens. -/
def enter? (found : List Token) (c : Char) : Option Lexer :=
  if c = ' ' ∨ c = '\t' ∨ c = '\n' ∨ c = '\r' then some ⟨.between, found⟩
  else if c ∈ ['[', ']', '\x7b', '\x7d', ',', ':'] then some ⟨.between, .mark c :: found⟩
  else if c = '"' then some ⟨.quoted [], found⟩
  else if isWordChar c then some ⟨.word [c], found⟩
  else none

def step? (lexer : Lexer) (c : Char) : Option Lexer :=
  match lexer.mode with
  | .between => enter? lexer.found c
  | .word seen =>
    if isWordChar c then some { lexer with mode := .word (c :: seen) }
    else (wordToken? seen.reverse).bind fun token => enter? (token :: lexer.found) c
  | .quoted seen =>
    if c = '"' then
      (unescape? seen.reverse).map fun s => ⟨.between, .string (String.ofList s) :: lexer.found⟩
    else if c = '\\' then some { lexer with mode := .escaped (c :: seen) }
    else if c.toNat < 0x20 then none
    else some { lexer with mode := .quoted (c :: seen) }
  | .escaped seen => some { lexer with mode := .quoted (c :: seen) }

/-- The tokens of a text that ends here. -/
def finish? (lexer : Lexer) : Option (List Token) :=
  match lexer.mode with
  | .between => some lexer.found.reverse
  | .word seen => (wordToken? seen.reverse).map fun token => (token :: lexer.found).reverse
  | .quoted _ | .escaped _ => none

end Lexer

def tokens? (text : List Char) : Option (List Token) :=
  (text.foldlM Lexer.step? ⟨.between, []⟩).bind Lexer.finish?

end Formula.Json
