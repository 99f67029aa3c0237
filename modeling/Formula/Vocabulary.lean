import Formula.Operator
import Formula.Value.Arithmetic
import Formula.Value.Collection
import Formula.Value.Json
import Formula.Value.Lookup
import Formula.Value.Order
import Formula.Value.Truth

/-!
# Vocabularies

A vocabulary lists the operators of a language by the place in which they are written. The place of a
binary operator in its list is its precedence, the tightest first.
-/

namespace Formula

structure Vocabulary (m : Type → Type) (C : Type) where
  binary : List (Operator m C) := []
  unary : List (Operator m C) := []
  constants : List (Operator m C) := []

namespace Vocabulary

variable {m : Type → Type} {C : Type}

/-- The operators of both; binary ones of the second bind more loosely. -/
def append (a b : Vocabulary m C) : Vocabulary m C :=
  ⟨a.binary ++ b.binary, a.unary ++ b.unary, a.constants ++ b.constants⟩

def map (f : Operator m C → Operator m C) (v : Vocabulary m C) : Vocabulary m C :=
  ⟨v.binary.map f, v.unary.map f, v.constants.map f⟩

variable [Monad m]

def pureBinary (token : String) (f : Value → Value → Value) : Operator m C :=
  .binary token fun a b _ => pure (f a b)

def pureUnary (token : String) (f : Value → Value) : Operator m C :=
  .unary token fun v _ => pure (f v)

def pureConstant (token : String) (v : Value) : Operator m C :=
  .constant token fun _ => pure v

/-- The operators that every language starts with. A lookup can ask the host, so it is not applied
ahead of evaluation; all others are. -/
def builtin (host : Host) : Vocabulary m C where
  binary :=
    pureBinary "." (Value.dot host) ::
      [pureBinary "*" Value.times, pureBinary "/" Value.dividedBy, pureBinary "+" Value.plus,
        pureBinary "-" Value.minus, pureBinary "^" Value.joined, pureBinary "@" Value.extend,
        pureBinary "in" Value.isIn, pureBinary "=" Value.isEqual,
        pureBinary "!=" Value.isUnequal, pureBinary ">" Value.isAbove, pureBinary "<" Value.isBelow,
        pureBinary ">=" Value.isAtLeast, pureBinary "<=" Value.isAtMost,
        pureBinary "&" Value.both, pureBinary "|" Value.either,
        pureBinary "," Value.prepend].map (·.withFoldable true)
  unary :=
    [pureUnary "!" Value.negation, pureUnary "+" Value.asNumber, pureUnary "-" Value.negated,
      pureUnary "sl" Value.singleton, pureUnary "JSON" Value.readJson].map (·.withFoldable true)
  constants :=
    [pureConstant "false" (.bool false), pureConstant "true" (.bool true),
      pureConstant "null" .null, pureConstant "undefined" .absent].map (·.withFoldable true)

end Vocabulary

end Formula
