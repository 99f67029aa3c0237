import Formula.Entries
import Formula.Json.Basic
import Formula.Json.Token

/-!
# Reading JSON

Tokens are read one by one beside a stack of the containers that are still open.
-/

namespace Formula.Json

/-- An open container. Items are kept last first; `key` is the key of the entry that is read. -/
inductive Frame where
  | array (items : List Json)
  | object (entries : Entries Json) (key : String)

/-- What may come next in the innermost container. -/
inductive Awaiting where
  /-- A value, or right after the bracket its counterpart. -/
  | value (first : Bool)
  /-- A key, or right after the brace its counterpart. -/
  | key (first : Bool)
  | colon
  /-- A comma or the end of the container. -/
  | comma

inductive Reader where
  | reading (stack : List Frame) (awaiting : Awaiting)
  | finished (value : Json)

/-- How many containers may be open at a time. -/
def depthLimit : Nat :=
  127

namespace Reader

/-- A value is complete: it goes into the innermost open container. An entry whose key is there
already takes its place. -/
def deliver (value : Json) : List Frame → Reader
  | [] => .finished value
  | .array items :: outer => .reading (.array (value :: items) :: outer) .comma
  | .object entries key :: outer => .reading (.object (entries.set key value) key :: outer) .comma

def openFrame? (frame : Frame) (awaiting : Awaiting) (stack : List Frame) : Option Reader :=
  if stack.length < depthLimit then some (.reading (frame :: stack) awaiting) else none

def step? : Reader → Token → Option Reader
  | .finished _, _ => none
  | .reading stack (.value first), token =>
    match token with
    | .null => some (deliver .null stack)
    | .bool b => some (deliver (.bool b) stack)
    | .number n => some (deliver (.number n) stack)
    | .string s => some (deliver (.string s) stack)
    | .mark '[' => openFrame? (.array []) (.value true) stack
    | .mark '\x7b' => openFrame? (.object [] "") (.key true) stack
    | .mark ']' =>
      match first, stack with
      | true, .array items :: outer => some (deliver (.array items.reverse) outer)
      | _, _ => none
    | .mark _ => none
  | .reading stack (.key first), token =>
    match token, stack with
    | .string key, .object entries _ :: outer => some (.reading (.object entries key :: outer) .colon)
    | .mark '\x7d', .object entries _ :: outer =>
      if first then some (deliver (.object entries) outer) else none
    | _, _ => none
  | .reading stack .colon, token =>
    match token with
    | .mark ':' => some (.reading stack (.value false))
    | _ => none
  | .reading stack .comma, token =>
    match token, stack with
    | .mark ',', .array _ :: _ => some (.reading stack (.value false))
    | .mark ',', .object .. :: _ => some (.reading stack (.key false))
    | .mark ']', .array items :: outer => some (deliver (.array items.reverse) outer)
    | .mark '\x7d', .object entries _ :: outer => some (deliver (.object entries) outer)
    | _, _ => none

def value? : Reader → Option Json
  | .finished value => some value
  | .reading .. => none

end Reader

def ofTokens? (tokens : List Token) : Option Json :=
  (tokens.foldlM Reader.step? (.reading [] (.value false))).bind Reader.value?

/-- The value that a text writes, if it writes exactly one. -/
def read? (text : List Char) : Option Json :=
  (tokens? text).bind ofTokens?

end Formula.Json
