import Formula.Compiler
import Formula.Proofs.Relating

/-!
# Folding

Folding applies operators ahead of evaluation and without a context. Where only operators that ignore
the context are applied so, a tree keeps its value.
-/

namespace Formula

/-! ## Operators of a tree -/

section

variable {m : Type → Type} {C : Type}

def Tree.All (P : Operator m C → Prop) : Tree m C → Prop
  | .leaf _ => True
  | .constant op => P op
  | .unary op operand => P op ∧ operand.All P
  | .group inner => inner.All P
  | .binary op _ left right => P op ∧ left.All P ∧ right.All P

theorem Tree.Related.all_left {n : Type → Type} {D : Type} {R : Operator m C → Operator n D → Prop}
    {P : Operator m C → Prop} (left : ∀ a b, R a b → P a) {t : Tree m C} {u : Tree n D}
    (related : t.Related R u) : t.All P := by
  induction related with
  | leaf => trivial
  | constant op => exact left _ _ op
  | unary op _ ih => exact ⟨left _ _ op, ih⟩
  | group _ ih => exact ih
  | binary op _ _ _ leftIh rightIh => exact ⟨left _ _ op, leftIh, rightIh⟩

theorem Tree.Related.all_right {n : Type → Type} {D : Type} {R : Operator m C → Operator n D → Prop}
    {P : Operator n D → Prop} (right : ∀ a b, R a b → P b) {t : Tree m C} {u : Tree n D}
    (related : t.Related R u) : u.All P := by
  induction related with
  | leaf => trivial
  | constant op => exact right _ _ op
  | unary op _ ih => exact ⟨right _ _ op, ih⟩
  | group _ ih => exact ih
  | binary op _ _ _ leftIh rightIh => exact ⟨right _ _ op, leftIh, rightIh⟩

/-- Trees whose operators do the same have the same value. -/
theorem Tree.Related.eval [Monad m] {R : Operator m C → Operator m C → Prop}
    (runs : ∀ a b, R a b → a.run = b.run) {t u : Tree m C} (related : t.Related R u)
    (context : Option C) : t.eval context = u.eval context := by
  induction related with
  | leaf => rfl
  | constant op => rw [Tree.eval, Tree.eval, runs _ _ op]
  | unary op _ ih => rw [Tree.eval, Tree.eval, runs _ _ op, ih]
  | group _ ih => exact ih
  | binary op _ _ _ leftIh rightIh => rw [Tree.eval, Tree.eval, runs _ _ op, leftIh, rightIh]

theorem Tree.fold_of_isFoldable [Monad m] [LawfulMonad m] {t : Tree m C} (foldable : t.isFoldable) :
    t.fold = .leaf <$> t.eval none := by
  cases t with
  | leaf value => exact (map_pure leaf value).symm
  | constant | unary | group | binary => exact if_pos foldable

end

variable {C : Type}

/-! ## Values of folded trees -/

/-- The operator gives with any context what it gives without one. -/
def Operator.IgnoresContext (op : Operator Id C) : Prop :=
  ∀ operands context, op.run operands context = op.run operands none

def Operator.FoldsSafely (op : Operator Id C) : Prop :=
  op.foldable → op.IgnoresContext

theorem Tree.eval_of_isFoldable {t : Tree Id C} (safe : t.All Operator.FoldsSafely)
    (foldable : t.isFoldable) (context : Option C) : t.eval context = t.eval none := by
  induction t with
  | leaf => rfl
  | constant op => exact safe foldable [] context
  | unary op operand ih =>
    simp only [isFoldable, Bool.and_eq_true] at foldable
    have same := ih safe.2 foldable.2
    have ignores := safe.1 foldable.1
    calc (Tree.unary op operand).eval context
      _ = op.run [operand.eval context] context := rfl
      _ = op.run [operand.eval none] none := by rw [same, ignores]
  | group inner ih => exact ih safe foldable
  | binary op priority left right leftIh rightIh =>
    simp only [isFoldable, Bool.and_eq_true] at foldable
    have sameLeft := leftIh safe.2.1 foldable.2.1
    have sameRight := rightIh safe.2.2 foldable.2.2
    have ignores := safe.1 foldable.1
    calc (Tree.binary op priority left right).eval context
      _ = op.run [left.eval context, right.eval context] context := rfl
      _ = op.run [left.eval none, right.eval none] none := by rw [sameLeft, sameRight, ignores]

theorem Tree.eval_fold {t : Tree Id C} (safe : t.All Operator.FoldsSafely) (context : Option C) :
    (Id.run t.fold).eval context = t.eval context := by
  have ahead : ∀ u : Tree Id C, u.All Operator.FoldsSafely → u.isFoldable →
      (Tree.leaf (Id.run (u.eval none)) : Tree Id C).eval context = u.eval context := by
    intro u safe foldable
    exact (eval_of_isFoldable safe foldable context).symm
  induction t with
  | leaf => rfl
  | constant op =>
    rw [fold]
    split
    · next foldable => exact ahead (.constant op) safe foldable
    · rfl
  | unary op operand ih =>
    rw [fold]
    split
    · next foldable => exact ahead (.unary op operand) safe foldable
    · exact congrArg (fun v => op.run [v] context) (ih safe.2)
  | group inner ih =>
    rw [fold]
    split
    · next foldable => exact ahead (.group inner) safe foldable
    · exact ih safe
  | binary op priority left right leftIh rightIh =>
    rw [fold]
    split
    · next foldable => exact ahead (.binary op priority left right) safe foldable
    · exact congrArg₂ (fun a b => op.run [a, b] context) (leftIh safe.2.1) (rightIh safe.2.2)

/-! ## Compilers -/

namespace Compiler

/-- The tree that a compiler gives for a text. -/
def answer (c : Compiler Id C) (text : String) : Except CompileError (Tree Id C) :=
  Shared.content <$> (Id.run (c.compile text)).1

/-- The value that the closure of a text returns. -/
def closureAnswer (c : Compiler Id C) (text : String) : Except CompileError Value :=
  (fun closure => Id.run (closure.content ())) <$> (Id.run (c.compileClosure text)).1

theorem answer_ofGrammar (g : Grammar Id C) (text : String) :
    (ofGrammar g).answer text = (fun t => Id.run t.fold) <$> g.parse text 0 := by
  unfold answer compile compileFrom
  have fresh : (ofGrammar g).trees.get? text = none := rfl
  have grammar : (ofGrammar g).grammar = g := rfl
  simp only [fresh, grammar]
  cases g.parse text 0 <;> rfl

theorem answer_ofGrammar_eq_ok {g : Grammar Id C} {text : String} {t : Tree Id C} :
    (ofGrammar g).answer text = .ok t ↔ ∃ parsed, g.parse text 0 = .ok parsed ∧ Id.run parsed.fold = t := by
  rw [answer_ofGrammar]
  cases g.parse text 0 with
  | error e => exact ⟨nofun, nofun⟩
  | ok parsed =>
    constructor
    · rintro ⟨rfl⟩
      exact ⟨parsed, rfl, rfl⟩
    · rintro ⟨_, ⟨rfl⟩, rfl⟩
      rfl

theorem closureAnswer_ofGrammar (g : Grammar Id C) (text : String) :
    (ofGrammar g).closureAnswer text =
      (fun t => Id.run (Tree.eval none (Id.run t.fold))) <$> g.parse text 0 := by
  unfold closureAnswer compileClosure compileFrom
  have fresh : (ofGrammar g).closures.get? text = none := rfl
  have grammar : (ofGrammar g).grammar = g := rfl
  simp only [fresh, grammar, ← Tree.toClosure_eq_eval]
  cases g.parse text 0 <;> rfl

/-- The compilers give the same errors, and trees and closures of the same values. -/
structure Agrees (c d : Compiler Id C) : Prop where
  trees : ∀ text, CompileError.Alike
    (fun t u => (∀ context, t.eval context = u.eval context) ∧ t.toClosure () = u.toClosure ())
    (c.answer text) (d.answer text)
  closures : ∀ text, c.closureAnswer text = d.closureAnswer text

end Compiler

/-! ## Whether operators may be applied ahead -/

/-- The same operator, but for whether it may be applied ahead of evaluation. If either may, it ignores
the context. -/
def Operator.SameButFolding (a b : Operator Id C) : Prop :=
  b = a.withFoldable b.foldable ∧ (a.foldable ∨ b.foldable → a.IgnoresContext)

namespace Operator.SameButFolding

variable {a b : Operator Id C}

theorem token (same : a.SameButFolding b) : a.token = b.token := by
  rw [same.1]
  rfl

theorem run (same : a.SameButFolding b) : a.run = b.run := by
  rw [same.1]
  rfl

theorem safe_left (same : a.SameButFolding b) : a.FoldsSafely :=
  fun foldable => same.2 (Or.inl foldable)

theorem safe_right (same : a.SameButFolding b) : b.FoldsSafely := by
  intro foldable operands context
  rw [← same.run]
  exact same.2 (Or.inr foldable) operands context

end Operator.SameButFolding

theorem Tree.Related.eval_fold {t u : Tree Id C} (related : t.Related Operator.SameButFolding u)
    (context : Option C) : (Id.run t.fold).eval context = (Id.run u.fold).eval context := by
  have left := related.all_left fun _ _ same => same.safe_left
  have right := related.all_right fun _ _ same => same.safe_right
  calc (Id.run t.fold).eval context
    _ = t.eval context := Tree.eval_fold left context
    _ = u.eval context := related.eval (fun _ _ same => same.run) context
    _ = (Id.run u.fold).eval context := (Tree.eval_fold right context).symm

theorem Compiler.agrees_of_related {g h : Grammar Id C} (related : g.Related Operator.SameButFolding h) :
    (Compiler.ofGrammar g).Agrees (.ofGrammar h) where
  trees text := by
    rw [answer_ofGrammar, answer_ofGrammar]
    refine (related.parse text 0).map fun t u tree => ?_
    rw [Tree.toClosure_eq_eval, Tree.toClosure_eq_eval]
    exact ⟨tree.eval_fold, tree.eval_fold none⟩
  closures text := by
    rw [closureAnswer_ofGrammar, closureAnswer_ofGrammar]
    have parsed := related.parse text 0
    generalize g.parse text 0 = x at parsed ⊢
    generalize h.parse text 0 = y at parsed ⊢
    cases parsed with
    | error e => rfl
    | ok tree => exact congrArg Except.ok (tree.eval_fold none)

theorem Operator.ignoresContext_withFoldable {op : Operator Id C} {foldable : Bool} :
    (op.withFoldable foldable).IgnoresContext ↔ op.IgnoresContext :=
  Iff.rfl

theorem Operator.sameButFolding_withFoldable {op : Operator Id C} (ignores : op.IgnoresContext)
    (foldable : Bool) : op.SameButFolding (op.withFoldable foldable) :=
  ⟨rfl, fun _ => ignores⟩

namespace Vocabulary

theorem ignoresContext_pureBinary (token : String) (f : Value → Value → Value) :
    (pureBinary token f : Operator Id C).IgnoresContext :=
  fun _ _ => rfl

theorem ignoresContext_pureUnary (token : String) (f : Value → Value) :
    (pureUnary token f : Operator Id C).IgnoresContext :=
  fun _ _ => rfl

theorem ignoresContext_pureConstant (token : String) (v : Value) :
    (pureConstant token v : Operator Id C).IgnoresContext :=
  fun _ _ => rfl

/-- Whether every operator of the vocabulary has the property. -/
structure All (P : Operator Id C → Prop) (v : Vocabulary Id C) : Prop where
  binary : ∀ op ∈ v.binary, P op
  unary : ∀ op ∈ v.unary, P op
  constants : ∀ op ∈ v.constants, P op

theorem All.append {P : Operator Id C → Prop} {v w : Vocabulary Id C} (all : v.All P) (others : w.All P) :
    (v.append w).All P :=
  ⟨List.forall_mem_append.mpr ⟨all.binary, others.binary⟩, List.forall_mem_append.mpr ⟨all.unary, others.unary⟩,
    List.forall_mem_append.mpr ⟨all.constants, others.constants⟩⟩

theorem builtin_ignoresContext (host : Host) :
    (builtin host : Vocabulary Id C).All Operator.IgnoresContext := by
  constructor <;>
    simp only [builtin, List.forall_mem_cons, List.forall_mem_map, Operator.ignoresContext_withFoldable,
      ignoresContext_pureBinary, ignoresContext_pureUnary, ignoresContext_pureConstant,
      List.not_mem_nil, false_imp_iff, implies_true, and_self]

theorem All.sameButFolding_map {v : Vocabulary Id C} (ignore : v.All Operator.IgnoresContext)
    (foldable : Bool) :
    v.Related Operator.SameButFolding (v.map (·.withFoldable foldable)) := by
  have table : ∀ ops : List (Operator Id C), (∀ op ∈ ops, op.IgnoresContext) →
      List.Forall₂ Operator.SameButFolding ops (ops.map (·.withFoldable foldable)) := by
    intro ops ignore
    rw [List.forall₂_map_right_iff, List.forall₂_same]
    exact fun op member => Operator.sameButFolding_withFoldable (ignore op member) foldable
  exact ⟨table _ ignore.binary, table _ ignore.unary, table _ ignore.constants⟩

end Vocabulary

/-- What every operator of a vocabulary has, every operator of a tree has. -/
theorem Grammar.parse_all {v : Vocabulary Id C} {P : Operator Id C → Prop} (all : v.All P)
    {spacing : Spacing} {text : String} {offset : Nat} {t : Tree Id C}
    (parsed : (Grammar.ofVocabulary v spacing).parse text offset = .ok t) : t.All P := by
  have table : ∀ ops : List (Operator Id C), (∀ op ∈ ops, P op) →
      List.Forall₂ (fun a b => a.token = b.token ∧ P a) ops ops := by
    intro ops all
    rw [List.forall₂_same]
    exact fun op member => ⟨rfl, all op member⟩
  have related : v.Related (fun a b => a.token = b.token ∧ P a) v :=
    ⟨table _ all.binary, table _ all.unary, table _ all.constants⟩
  have alike := (Grammar.ofVocabulary_related (fun _ _ same => same.1) related spacing).parse text offset
  rw [parsed] at alike
  cases alike with
  | ok tree => exact tree.all_left fun _ _ same => same.2

/-- Where no operator looks at the context, a tree has the value that it has before it is folded. -/
theorem Compiler.answer_ofVocabulary_eq_ok {v : Vocabulary Id C} (ignore : v.All Operator.IgnoresContext)
    {spacing : Spacing} {text : String} {t : Tree Id C} :
    (Compiler.ofVocabulary v spacing).answer text = .ok t ↔
      ∃ parsed, (Grammar.ofVocabulary v spacing).parse text 0 = .ok parsed ∧
        Id.run parsed.fold = t ∧ ∀ context, t.eval context = parsed.eval context := by
  have safe : v.All Operator.FoldsSafely :=
    ⟨fun op member _ => ignore.binary op member, fun op member _ => ignore.unary op member,
      fun op member _ => ignore.constants op member⟩
  refine answer_ofGrammar_eq_ok.trans (exists_congr fun parsed => and_congr_right fun parses => ?_)
  refine ⟨?_, fun folded => folded.1⟩
  rintro rfl
  exact ⟨rfl, Tree.eval_fold (Grammar.parse_all safe parses)⟩

theorem Compiler.standard_eq (host : Host) (spacing : Spacing) :
    (Compiler.standard host ⟨[], [], []⟩ spacing : Compiler Id C) =
      .ofVocabulary (.builtin host) spacing := by
  simp only [standard, Vocabulary.append, List.append_nil]

/-- Whether operators are applied ahead of evaluation, if they ignore the context, changes neither
errors nor values. In particular the built-in operators can be applied ahead. -/
theorem Compiler.agrees_whatever_folds :
    (∀ {C : Type} (v w : Vocabulary Id C) (spacing : Spacing), v.Related Operator.SameButFolding w →
        (Compiler.ofVocabulary v spacing).Agrees (.ofVocabulary w spacing)) ∧
      ∀ {C : Type} (host : Host) (spacing : Spacing),
        (Compiler.standard host ⟨[], [], []⟩ spacing : Compiler Id C).Agrees
          (.ofVocabulary ((Vocabulary.builtin host).map (·.withFoldable false)) spacing) := by
  have general : ∀ {C : Type} (v w : Vocabulary Id C) (spacing : Spacing),
      v.Related Operator.SameButFolding w →
        (Compiler.ofVocabulary v spacing).Agrees (.ofVocabulary w spacing) := by
    intro C v w spacing related
    exact agrees_of_related
      (Grammar.ofVocabulary_related (fun _ _ same => same.token) related spacing)
  refine ⟨general, fun host spacing => ?_⟩
  rw [standard_eq]
  exact general _ _ spacing ((Vocabulary.builtin_ignoresContext host).sameButFolding_map false)

/-- A sum, applied ahead or not, and a constant that asks the context. -/
def Vocabulary.level (foldable : Bool) : Vocabulary Id Nat where
  binary := [(pureBinary "+" Value.plus).withFoldable foldable]
  constants := [.constant "level" fun context => pure (.number (.ofNat (context.getD 0)))]

theorem Compiler.agrees_whatever_folds_level :
    (Vocabulary.level true).Related Operator.SameButFolding (.level false) ∧
      (Compiler.ofVocabulary (.level true) .always).Agrees (.ofVocabulary (.level false) .always) ∧
      Tree.isFoldable <$> (Compiler.ofVocabulary (.level true) .always).answer "1 + 2" = .ok true ∧
      Tree.isFoldable <$> (Compiler.ofVocabulary (.level false) .always).answer "1 + 2" = .ok false := by
  have sum : ((Vocabulary.pureBinary "+" Value.plus : Operator Id Nat).withFoldable true).SameButFolding
      ((Vocabulary.pureBinary "+" Value.plus).withFoldable false) := ⟨rfl, fun _ _ _ => rfl⟩
  have constant : ∀ op : Operator Id Nat, op.foldable = false → op.SameButFolding op := by
    intro op fixed
    refine ⟨rfl, fun ahead => ?_⟩
    simp only [fixed, Bool.false_eq_true, or_self] at ahead
  have related : (Vocabulary.level true).Related Operator.SameButFolding (.level false) :=
    ⟨.cons sum .nil, .nil, .cons (constant _ rfl) .nil⟩
  exact ⟨related, agrees_whatever_folds.1 _ _ .always related, rfl, rfl⟩

end Formula
