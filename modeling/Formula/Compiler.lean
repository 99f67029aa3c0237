import Formula.Assembly
import Formula.Store
import Formula.Tree.Eval

/-!
# Compilers

A compiler remembers the trees and the closures of whole texts. Operators run in the monad `m`, also
those that are applied while a tree is compiled.
-/

namespace Formula

variable {m : Type → Type} {C : Type}

/-- An object that can be told from others of the same content. -/
structure Shared (α : Type) where
  serial : Nat
  content : α

structure Compiler (m : Type → Type) (C : Type) where
  grammar : Grammar m C
  trees : Store (Shared (Tree m C))
  closures : Store (Shared (Closure m))
  /-- How many objects have been made. -/
  made : Nat

namespace Compiler

def ofGrammar (grammar : Grammar m C) : Compiler m C :=
  ⟨grammar, .empty, .empty, 0⟩

def ofVocabulary (vocabulary : Vocabulary m C) (spacing : Spacing) : Compiler m C :=
  ofGrammar (.ofVocabulary vocabulary spacing)

/-- Makes an object unlike all made before. -/
def share {α : Type} (c : Compiler m C) (content : α) : Shared α × Compiler m C :=
  (⟨c.made, content⟩, { c with made := c.made + 1 })

/-- Forgets all texts. Trees and closures that were handed out stay what they are. -/
def clear (c : Compiler m C) : Compiler m C :=
  { c with trees := .empty, closures := .empty }

variable [Monad m]

/-- The compiler of the built-in operators and those of `custom`, of which the binary ones bind more
loosely. -/
def standard (host : Host) (custom : Vocabulary m C) (spacing : Spacing) : Compiler m C :=
  ofVocabulary ((Vocabulary.builtin host).append custom) spacing

/-- The tree of a text from a byte offset on, folded. It is looked up and remembered only if it is
that of the whole text and `fresh` is not set. -/
def compileFrom (c : Compiler m C) (text : String) (offset : Nat) (fresh : Bool) :
    m (Except CompileError (Shared (Tree m C)) × Compiler m C) :=
  let remembers := offset == 0 && !fresh
  match if remembers then c.trees.get? text else none with
  | some tree => pure (.ok tree, c)
  | none =>
    match c.grammar.parse text offset with
    | .error e => pure (.error e, c)
    | .ok parsed => do
      let folded ← parsed.fold
      let (tree, c) := c.share folded
      if remembers then
        let (trees, kept) := c.trees.keep text tree
        return (.ok kept, { c with trees })
      else return (.ok tree, c)

def compile (c : Compiler m C) (text : String) :
    m (Except CompileError (Shared (Tree m C)) × Compiler m C) :=
  c.compileFrom text 0 false

/-- The closure of a text. It is remembered apart from the tree, which is made for it alone. -/
def compileClosure (c : Compiler m C) (text : String) :
    m (Except CompileError (Shared (Closure m)) × Compiler m C) :=
  match c.closures.get? text with
  | some closure => pure (.ok closure, c)
  | none => do
    match ← c.compileFrom text 0 true with
    | (.error e, c) => return (.error e, c)
    | (.ok tree, c) =>
      let (closure, c) := c.share tree.content.toClosure
      let (closures, kept) := c.closures.keep text closure
      return (.ok kept, { c with closures })

end Compiler

end Formula
