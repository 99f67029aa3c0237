import Formula.Proofs.Remembering
import Formula.Proofs.Tokens

/-!
# Compiling with effects

Operators that read and change a state run while a tree is folded and whenever it is evaluated. Whether
a text has a tree depends neither on them nor on what a compiler remembers.
-/

namespace Formula

variable {σ C : Type}

namespace Store

variable {α : Type} {store : Store α} {right : String → α → Prop} {text : String}

/-- Whether all that is kept is right. -/
def Only (right : String → α → Prop) (store : Store α) : Prop :=
  ∀ text kept, store.get? text = some kept → right text kept

theorem Only.keep (only : store.Only right) (value : α) (correct : right text value) :
    (store.keep text value).1.Only right := by
  intro other kept found
  cases looked : store.get? text with
  | some _ =>
    rw [Store.keep, looked] at found
    exact only other kept found
  | none =>
    rw [keep_of_get?_eq_none looked] at found
    by_cases same : other = text
    · rw [same, get?_cons_self, Option.some.injEq] at found
      rwa [same, ← found]
    · rw [get?_cons_of_ne same] at found
      exact only other kept found

end Store

/-- Whether a tree is that of a text from an offset on, folded from some state. -/
def Grammar.Folds (g : Grammar (StateM σ) C) (text : String) (offset : Nat) (t : Tree (StateM σ) C) : Prop :=
  ∃ parsed s, g.parse text offset = .ok parsed ∧ t = (Id.run (parsed.fold.run s)).1

namespace Compiler

/-- What a compiler gives for a text from a byte offset on, if the operators start from `state`. -/
def result (c : Compiler (StateM σ) C) (text : String) (offset : Nat) (fresh : Bool) (state : σ) :
    Except CompileError (Tree (StateM σ) C) :=
  Shared.content <$> (Id.run ((c.compileFrom text offset fresh).run state)).1.1

/-- What a compiler gives for a text from a byte offset on, and the state that is left. -/
def answerFrom (c : Compiler (StateM σ) C) (text : String) (offset : Nat) (fresh : Bool) (state : σ) :
    Except CompileError (Tree (StateM σ) C) × σ :=
  (c.result text offset fresh state, (Id.run ((c.compileFrom text offset fresh).run state)).2)

/-- The tree that a compiler remembers for a request. -/
def kept? {m : Type → Type} (c : Compiler m C) (text : String) (offset : Nat) (fresh : Bool) :
    Option (Shared (Tree m C)) :=
  if offset == 0 && !fresh then c.trees.get? text else none

/-- What is read folded from a state, and the state that is left. An error leaves the state as it is. -/
def foldFrom (state : σ) : Except CompileError (Tree (StateM σ) C) →
    Except CompileError (Tree (StateM σ) C) × σ
  | .error e => (.error e, state)
  | .ok t => (Id.run (t.fold.run state)).map .ok id

/-- The compilers that come from a first one by requests, each from any state. -/
inductive Reached (first : Compiler (StateM σ) C) : Compiler (StateM σ) C → Prop where
  | start : Reached first first
  | tree {c : Compiler (StateM σ) C} (earlier : Reached first c) (text : String) (offset : Nat)
      (fresh : Bool) (s : σ) : Reached first (Id.run ((c.compileFrom text offset fresh).run s)).1.2
  | closure {c : Compiler (StateM σ) C} (earlier : Reached first c) (text : String) (s : σ) :
      Reached first (Id.run ((c.compileClosure text).run s)).1.2
  | clear {c : Compiler (StateM σ) C} (earlier : Reached first c) : Reached first c.clear

/-- Whether a compiler remembers nothing but trees and closures of texts that have a tree. -/
structure Sound (g : Grammar (StateM σ) C) (c : Compiler (StateM σ) C) : Prop where
  grammar : c.grammar = g
  trees : c.trees.Only fun text tree => g.Folds text 0 tree.content
  closures : c.closures.Only fun text _ => ∃ parsed, g.parse text 0 = .ok parsed

/-- What a request for a tree gives, and what it leaves. -/
structure GivesTree (g : Grammar (StateM σ) C) (text : String) (offset : Nat)
    (answer : Except CompileError (Shared (Tree (StateM σ) C)) × Compiler (StateM σ) C) : Prop where
  error : ∀ e, answer.1 = .error e ↔ g.parse text offset = .error e
  ok : ∀ tree, answer.1 = .ok tree → g.Folds text offset tree.content
  sound : answer.2.Sound g

variable {g : Grammar (StateM σ) C} {c : Compiler (StateM σ) C}

theorem Sound.givesError (sound : c.Sound g) {text : String} {offset : Nat} {e : CompileError}
    (parsed : g.parse text offset = .error e) : GivesTree g text offset (.error e, c) := by
  refine ⟨fun _ => ?_, nofun, sound⟩
  rw [parsed]
  exact ⟨fun | rfl => rfl, fun | rfl => rfl⟩

theorem Sound.givesTree (sound : c.Sound g) {text : String} {offset : Nat}
    (tree : Shared (Tree (StateM σ) C)) (folds : g.Folds text offset tree.content) :
    GivesTree g text offset (.ok tree, c) := by
  refine ⟨fun _ => ?_, fun | _, rfl => folds, sound⟩
  obtain ⟨parsed, _, parses, _⟩ := folds
  rw [parses]
  exact ⟨nofun, nofun⟩

theorem Sound.compileFrom (sound : c.Sound g) (text : String) (offset : Nat) (fresh : Bool) (s : σ) :
    GivesTree g text offset (Id.run ((c.compileFrom text offset fresh).run s)).1 := by
  unfold Compiler.compileFrom
  rw [sound.grammar]
  dsimp only
  cases remembers : offset == 0 && !fresh with
  | true =>
    obtain ⟨whole, _⟩ := Bool.and_eq_true_iff.mp remembers
    obtain rfl := beq_iff_eq.mp whole
    simp only [if_true]
    cases looked : c.trees.get? text with
    | some kept => exact sound.givesTree kept (sound.trees text kept looked)
    | none =>
      cases parsed : g.parse text 0 with
      | error e => exact sound.givesError parsed
      | ok t =>
        have trees := sound.trees.keep ⟨c.made, (Id.run (t.fold.run s)).1⟩ ⟨t, s, parsed, rfl⟩
        have after : Sound g { c with trees := _, made := c.made + 1 } :=
          ⟨sound.grammar, trees, sound.closures⟩
        exact after.givesTree _ (trees text _ (Store.get?_keep ..))
  | false =>
    simp only [Bool.false_eq_true, if_false]
    cases parsed : g.parse text offset with
    | error e => exact sound.givesError parsed
    | ok t =>
      have after : Sound g { c with made := c.made + 1 } := ⟨sound.grammar, sound.trees, sound.closures⟩
      exact after.givesTree ⟨c.made, _⟩ ⟨t, s, parsed, rfl⟩

theorem Sound.compileClosure (sound : c.Sound g) (text : String) (s : σ) :
    (∀ e, (Id.run ((c.compileClosure text).run s)).1.1 = .error e ↔ g.parse text 0 = .error e) ∧
      (Id.run ((c.compileClosure text).run s)).1.2.Sound g := by
  have gives := sound.compileFrom text 0 true s
  unfold Compiler.compileClosure
  cases looked : c.closures.get? text with
  | some kept =>
    obtain ⟨parsed, parses⟩ := sound.closures text kept looked
    rw [parses]
    exact ⟨fun _ => ⟨nofun, nofun⟩, sound⟩
  | none =>
    simp only [StateT.run_bind, Id.run_bind]
    generalize Id.run ((c.compileFrom text 0 true).run s) = compiled at gives
    obtain ⟨⟨result, after⟩, s'⟩ := compiled
    cases result with
    | error e =>
      rw [(gives.error e).mp rfl]
      exact ⟨fun _ => ⟨fun | rfl => rfl, fun | rfl => rfl⟩, gives.sound⟩
    | ok tree =>
      obtain ⟨parsed, _, parses, _⟩ := gives.ok tree rfl
      have closures := gives.sound.closures.keep ⟨after.made, tree.content.toClosure⟩ ⟨parsed, parses⟩
      rw [parses]
      exact ⟨fun _ => ⟨nofun, nofun⟩, gives.sound.grammar, gives.sound.trees, closures⟩

theorem Reached.sound (reached : Reached (ofGrammar g) c) : c.Sound g := by
  induction reached with
  | start => exact ⟨rfl, nofun, nofun⟩
  | tree _ text offset fresh s ih => exact (ih.compileFrom text offset fresh s).sound
  | closure _ text s ih => exact (ih.compileClosure text s).2
  | clear _ ih => exact ⟨ih.grammar, nofun, nofun⟩

/-- Whatever a compiler remembers, a text without a tree is refused for the same reason. -/
theorem Reached.result_eq_error (reached : Reached (ofGrammar g) c) {text : String} {offset : Nat}
    {fresh : Bool} {s : σ} {e : CompileError} :
    c.result text offset fresh s = .error e ↔ g.parse text offset = .error e := by
  rw [← (reached.sound.compileFrom text offset fresh s).error, result]
  cases (Id.run ((c.compileFrom text offset fresh).run s)).1.1 with
  | error e' => exact Iff.intro (fun | rfl => rfl) (fun | rfl => rfl)
  | ok tree => exact ⟨nofun, nofun⟩

theorem Reached.exists_result (reached : Reached (ofGrammar g) c) {text : String} {offset : Nat}
    {parsed : Tree (StateM σ) C} (parses : g.parse text offset = .ok parsed) (fresh : Bool) (s : σ) :
    ∃ t, c.result text offset fresh s = .ok t := by
  cases answer : c.result text offset fresh s with
  | error e => cases parses.symm.trans (reached.result_eq_error.mp answer)
  | ok t => exact ⟨t, rfl⟩

theorem Reached.folds_of_result (reached : Reached (ofGrammar g) c) {text : String} {offset : Nat}
    {fresh : Bool} {s : σ} {t : Tree (StateM σ) C} (given : c.result text offset fresh s = .ok t) :
    g.Folds text offset t := by
  have ok := (reached.sound.compileFrom text offset fresh s).ok
  unfold result at given
  cases answer : (Id.run ((c.compileFrom text offset fresh).run s)).1.1 with
  | error e =>
    rw [answer] at given
    cases given
  | ok tree =>
    rw [answer] at given
    cases given
    exact ok tree answer

/-! ## Requests that nothing is remembered for -/

section

variable {text : String} {offset : Nat} {fresh : Bool} {s s' : σ} {t : Tree (StateM σ) C} {e : CompileError}
  {parsed : Except CompileError (Tree (StateM σ) C)}

theorem foldFrom_eq_ok :
    foldFrom s parsed = (.ok t, s') ↔ ∃ u, parsed = .ok u ∧ Id.run (u.fold.run s) = (t, s') := by
  constructor
  · intro folded
    cases parsed with
    | error => cases folded
    | ok u =>
      obtain ⟨same, left⟩ := Prod.mk.inj folded
      exact ⟨u, rfl, Prod.ext (Except.ok.inj same) left⟩
  · rintro ⟨u, rfl, folded⟩
    rw [foldFrom, folded]
    rfl

theorem foldFrom_eq_error : foldFrom s parsed = (.error e, s') ↔ parsed = .error e ∧ s = s' := by
  cases parsed with
  | error => rw [foldFrom, Prod.mk.injEq, Except.error.injEq]
  | ok u =>
    constructor
    · intro folded
      cases (Prod.mk.inj folded).1
    · rintro ⟨same, _⟩
      cases same

/-- A text that is not remembered is folded, whether its tree is remembered then or not. -/
theorem answerFrom_of_missing (missing : c.kept? text offset fresh = none) (s : σ) :
    c.answerFrom text offset fresh s = foldFrom s (c.grammar.parse text offset) := by
  unfold kept? at missing
  cases parsed : c.grammar.parse text offset with
  | error e =>
    simp only [answerFrom, result, compileFrom, missing, parsed]
    rfl
  | ok t =>
    simp only [answerFrom, result, compileFrom, missing, parsed]
    cases remembers : offset == 0 && !fresh with
    | true =>
      rw [remembers, if_pos rfl] at missing
      have stored := Store.keep_of_get?_eq_none missing ⟨c.made, (Id.run (t.fold.run s)).1⟩
      exact congrArg (fun kept => (Except.ok kept.2.content, (Id.run (t.fold.run s)).2)) stored
    | false => rfl

theorem answerFrom_ofGrammar (g : Grammar (StateM σ) C) (text : String) (offset : Nat) (fresh : Bool)
    (s : σ) : (ofGrammar g).answerFrom text offset fresh s = foldFrom s (g.parse text offset) := by
  have missing : (ofGrammar g).kept? text offset fresh = none := by
    unfold kept?
    split <;> rfl
  exact answerFrom_of_missing missing s

/-- Nothing is looked up behind an offset. -/
theorem answerFrom_of_positive (c : Compiler (StateM σ) C) (text : String) (positive : 0 < offset)
    (fresh : Bool) (s : σ) : c.answerFrom text offset fresh s = foldFrom s (c.grammar.parse text offset) := by
  have apart : (offset == 0 && !fresh) = false := by
    rw [beq_eq_false_iff_ne.mpr positive.ne', Bool.false_and]
  exact answerFrom_of_missing (by rw [kept?, apart, if_neg Bool.false_ne_true]) s

end

end Compiler

/-- A constant that counts how often it has been asked for. -/
def Operator.next : Operator (StateM Nat) Unit :=
  .constant "next" fun _ => modifyGet fun n => (.number (.ofNat n), n + 1)

/-- Sums of counts. -/
def Vocabulary.counter : Vocabulary (StateM Nat) Unit where
  binary := [(pureBinary "+" Value.plus).withFoldable true]
  constants := [.next]

theorem Vocabulary.counter_avoids {c : Char} (plus : c ∉ ['+']) (next : c ∉ ['n', 'e', 'x', 't']) :
    counter.Avoids c :=
  ⟨fun _ member => by
      cases List.mem_singleton.mp member
      exact plus,
    nofun,
    fun _ member => by
      cases List.mem_singleton.mp member
      exact next⟩

/-- Sums of counts that are taken while a text is compiled. -/
def Vocabulary.eager : Vocabulary (StateM Nat) Unit :=
  counter.map (·.withFoldable true)

theorem Vocabulary.eager_avoids {c : Char} (plus : c ∉ ['+']) (next : c ∉ ['n', 'e', 'x', 't']) :
    eager.Avoids c := by
  have avoids := counter_avoids plus next
  exact ⟨List.forall_mem_map.mpr avoids.binary, List.forall_mem_map.mpr avoids.unary,
    List.forall_mem_map.mpr avoids.constants⟩

end Formula
