import Formula.Proofs.Calls

/-!
# Calls ahead of evaluation

Which operators are called while a text is compiled, and which are left for the evaluation of its tree.
Each operator of a tree is one or the other.
-/

namespace Formula

variable {m : Type → Type} {σ C : Type}

namespace Tree

/-! ## Operators -/

/-- The operators of a tree in the order of evaluation: each behind its operands, the left before the right. A
group has none. -/
def operators : Tree m C → List (Operator m C)
  | .leaf _ => []
  | .constant op => [op]
  | .unary op operand => operand.operators ++ [op]
  | .group inner => inner.operators
  | .binary op _ left right => left.operators ++ right.operators ++ [op]

/-- The largest parts that are foldable, from left to right. -/
def foldableParts : Tree m C → List (Tree m C)
  | .leaf value => [.leaf value]
  | .constant op => if op.foldable then [.constant op] else []
  | .unary op operand =>
    if (unary op operand).isFoldable then [.unary op operand] else operand.foldableParts
  | .group inner => if inner.isFoldable then [.group inner] else inner.foldableParts
  | .binary op priority left right =>
    if (binary op priority left right).isFoldable then [.binary op priority left right]
    else left.foldableParts ++ right.foldableParts

def operatorsAhead (t : Tree m C) : List (Operator m C) :=
  t.foldableParts.flatMap operators

section

variable {t n part : Tree m C}

theorem foldableParts_of_isFoldable (foldable : t.isFoldable) : t.foldableParts = [t] := by
  cases t with
  | leaf => rfl
  | constant | unary | group | binary => exact if_pos foldable

/-- All parts of a foldable tree are foldable. -/
theorem isFoldable_of_mem_nodes (foldable : t.isFoldable) (node : n ∈ t.nodes) : n.isFoldable := by
  induction t with
  | leaf | constant =>
    cases List.mem_singleton.mp node
    exact foldable
  | unary op operand ih =>
    rcases List.mem_cons.mp node with rfl | below
    · exact foldable
    · exact ih (Bool.and_eq_true_iff.mp foldable).2 below
  | group inner ih =>
    rcases List.mem_cons.mp node with rfl | below
    · exact foldable
    · exact ih foldable below
  | binary op priority left right leftIh rightIh =>
    obtain ⟨_, operands⟩ := Bool.and_eq_true_iff.mp foldable
    obtain ⟨onLeft, onRight⟩ := Bool.and_eq_true_iff.mp operands
    rcases List.mem_cons.mp node with rfl | below
    · exact foldable
    · rcases List.mem_append.mp below with below | below
      · exact leftIh onLeft below
      · exact rightIh onRight below

theorem isFoldable_of_mem_foldableParts (member : part ∈ t.foldableParts) : part.isFoldable := by
  induction t with
  | leaf value =>
    cases List.mem_singleton.mp member
    rfl
  | constant op =>
    rw [foldableParts] at member
    split at member
    · cases List.mem_singleton.mp member
      assumption
    · cases member
  | unary op operand ih =>
    rw [foldableParts] at member
    split at member
    · cases List.mem_singleton.mp member
      assumption
    · exact ih member
  | group inner ih =>
    rw [foldableParts] at member
    split at member
    · cases List.mem_singleton.mp member
      assumption
    · exact ih member
  | binary op priority left right leftIh rightIh =>
    rw [foldableParts] at member
    split at member
    · cases List.mem_singleton.mp member
      assumption
    · exact (List.mem_append.mp member).elim leftIh rightIh

theorem exists_part (node : n ∈ t.nodes) (foldable : n.isFoldable) :
    ∃ part ∈ t.foldableParts, n ∈ part.nodes := by
  have whole : ∀ {t : Tree m C}, t.isFoldable → n ∈ t.nodes → ∃ part ∈ t.foldableParts, n ∈ part.nodes := by
    intro t foldable node
    rw [foldableParts_of_isFoldable foldable]
    exact ⟨t, List.mem_singleton_self t, node⟩
  induction t with
  | leaf => exact whole rfl node
  | constant =>
    cases List.mem_singleton.mp node
    exact whole foldable node
  | unary op operand ih =>
    rcases List.mem_cons.mp node with rfl | below
    · exact whole foldable node
    · by_cases all : (unary op operand).isFoldable
      · exact whole all node
      · rw [foldableParts, if_neg all]
        exact ih below
  | group inner ih =>
    rcases List.mem_cons.mp node with rfl | below
    · exact whole foldable node
    · by_cases all : inner.isFoldable
      · exact whole (t := .group inner) all node
      · rw [foldableParts, if_neg all]
        exact ih below
  | binary op priority left right leftIh rightIh =>
    rcases List.mem_cons.mp node with rfl | below
    · exact whole foldable node
    · by_cases all : (binary op priority left right).isFoldable
      · exact whole all node
      · rw [foldableParts, if_neg all]
        rcases List.mem_append.mp below with below | below
        · obtain ⟨part, member, inside⟩ := leftIh below
          exact ⟨part, List.mem_append_left _ member, inside⟩
        · obtain ⟨part, member, inside⟩ := rightIh below
          exact ⟨part, List.mem_append_right _ member, inside⟩

/-- A node is foldable if and only if it lies in one of the largest parts that are. -/
theorem isFoldable_iff_exists_part (node : n ∈ t.nodes) :
    n.isFoldable ↔ ∃ part ∈ t.foldableParts, n ∈ part.nodes := by
  refine ⟨exists_part node, ?_⟩
  rintro ⟨part, member, inside⟩
  exact isFoldable_of_mem_nodes (isFoldable_of_mem_foldableParts member) inside

end

/-! ## Calls -/

/-- From one state, folding makes some calls and leaves a tree and another state. Each largest foldable part is
performed without a context. No operator outside of these parts is called, and all of them stay in the tree. -/
inductive FoldsTo : Tree (StateM σ) C → σ → List (Call σ C) → Tree (StateM σ) C → σ → Prop where
  | whole {t : Tree (StateM σ) C} {s s' : σ} {calls : List (Call σ C)} {value : Value}
      (foldable : t.isFoldable) (performs : t.Performs none s calls value s') :
      FoldsTo t s calls (.leaf value) s'
  | constant {op : Operator (StateM σ) C} (fixed : ¬(constant op).isFoldable) (s : σ) :
      FoldsTo (.constant op) s [] (.constant op) s
  | unary {op : Operator (StateM σ) C} {t u : Tree (StateM σ) C} {s s' : σ} {calls : List (Call σ C)}
      (fixed : ¬(unary op t).isFoldable) (operand : FoldsTo t s calls u s') :
      FoldsTo (.unary op t) s calls (.unary op u) s'
  | group {t u : Tree (StateM σ) C} {s s' : σ} {calls : List (Call σ C)} (fixed : ¬(group t).isFoldable)
      (inner : FoldsTo t s calls u s') : FoldsTo (.group t) s calls (.group u) s'
  | binary {op : Operator (StateM σ) C} {priority : Nat} {t t' u u' : Tree (StateM σ) C} {s s₁ s' : σ}
      {calls calls' : List (Call σ C)} (fixed : ¬(binary op priority t t').isFoldable)
      (left : FoldsTo t s calls u s₁) (right : FoldsTo t' s₁ calls' u' s') :
      FoldsTo (.binary op priority t t') s (calls ++ calls') (.binary op priority u u') s'

variable {context : Option C} {t u : Tree (StateM σ) C} {s s' : σ} {calls : List (Call σ C)} {value : Value}

theorem exists_foldsTo_of_isFoldable (foldable : t.isFoldable) (s : σ) :
    ∃ calls u s', t.FoldsTo s calls u s' := by
  obtain ⟨calls, value, s', performs⟩ := t.exists_performs none s
  exact ⟨calls, .leaf value, s', .whole foldable performs⟩

theorem exists_foldsTo (t : Tree (StateM σ) C) (s : σ) : ∃ calls u s', t.FoldsTo s calls u s' := by
  induction t generalizing s with
  | leaf => exact exists_foldsTo_of_isFoldable rfl s
  | constant op =>
    by_cases foldable : (constant op).isFoldable
    · exact exists_foldsTo_of_isFoldable foldable s
    · exact ⟨_, _, _, .constant foldable s⟩
  | unary op operand ih =>
    by_cases foldable : (unary op operand).isFoldable
    · exact exists_foldsTo_of_isFoldable foldable s
    · obtain ⟨calls, u, s', folds⟩ := ih s
      exact ⟨_, _, _, .unary foldable folds⟩
  | group inner ih =>
    by_cases foldable : (group inner).isFoldable
    · exact exists_foldsTo_of_isFoldable foldable s
    · obtain ⟨calls, u, s', folds⟩ := ih s
      exact ⟨_, _, _, .group foldable folds⟩
  | binary op priority left right leftIh rightIh =>
    by_cases foldable : (binary op priority left right).isFoldable
    · exact exists_foldsTo_of_isFoldable foldable s
    · obtain ⟨calls, u, s₁, first⟩ := leftIh s
      obtain ⟨calls', u', s', second⟩ := rightIh s₁
      exact ⟨_, _, _, .binary foldable first second⟩

@[simp] theorem isFoldable_recorded (t : Tree (StateM σ) C) : t.recorded.isFoldable = t.isFoldable := by
  unfold recorded
  induction t with
  | leaf | constant => rfl
  | unary op operand ih => exact congrArg (op.foldable && ·) ih
  | group inner ih => exact ih
  | binary op priority left right leftIh rightIh =>
    exact congrArg₂ (fun a b => op.foldable && (a && b)) leftIh rightIh

/-- What folding is recorded to call is what it is said to call. -/
theorem FoldsTo.fold_recorded (folds : t.FoldsTo s calls u s') (earlier : List (Call σ C)) :
    Id.run (t.recorded.fold.run (s, earlier)) = (u.recorded, s', earlier ++ calls) := by
  have fixed : ∀ {t : Tree (StateM σ) C}, ¬t.isFoldable → ¬t.recorded.isFoldable := by
    intro t
    rw [isFoldable_recorded]
    exact id
  induction folds generalizing earlier with
  | whole foldable performs =>
    rw [fold_of_isFoldable ((isFoldable_recorded _).trans foldable), StateT.run_map, Id.run_map,
      performs.eval_recorded]
    rfl
  | @constant op unfoldable s =>
    have folded : (Tree.constant op).recorded.fold = pure (Tree.constant op).recorded := if_neg (fixed unfoldable)
    rw [folded, List.append_nil]
    rfl
  | @unary op t _ _ _ _ unfoldable _ ih =>
    have folded : (Tree.unary op t).recorded.fold =
        Tree.unary (op.noting (Call.mk op)) <$> t.recorded.fold :=
      if_neg (fixed unfoldable)
    rw [folded, StateT.run_map, Id.run_map, ih]
    rfl
  | @group t _ _ _ _ unfoldable _ ih =>
    have folded : (Tree.group t).recorded.fold = Tree.group <$> t.recorded.fold := if_neg (fixed unfoldable)
    rw [folded, StateT.run_map, Id.run_map, ih]
    rfl
  | @binary op priority t t' _ _ _ _ _ _ _ unfoldable _ _ leftIh rightIh =>
    have folded : (Tree.binary op priority t t').recorded.fold = (do
        let a ← t.recorded.fold
        let b ← t'.recorded.fold
        return Tree.binary (op.noting (Call.mk op)) priority a b) := if_neg (fixed unfoldable)
    simp only [folded, StateT.run_bind, Id.run_bind, leftIh, rightIh, List.append_assoc]
    rfl

/-- Evaluation calls each operator of a tree once, with its token and always with the same context. -/
theorem Performs.operators (performs : t.Performs context s calls value s') :
    calls.map (fun call => (call.op, call.token, call.context)) =
      t.operators.map fun op => (op, op.token, context) := by
  induction performs with
  | leaf | constant => rfl
  | unary _ _ ih => rw [List.map_append, ih, Tree.operators, List.map_append]; rfl
  | group _ ih => exact ih
  | binary _ _ _ leftIh rightIh =>
    rw [List.map_append, List.map_append, leftIh, rightIh, Tree.operators, List.map_append, List.map_append]
    rfl

/-- Folding calls each operator of the foldable parts once, with its token and always without a context. -/
theorem FoldsTo.operatorsAhead (folds : t.FoldsTo s calls u s') :
    calls.map (fun call => (call.op, call.token, call.context)) =
      t.operatorsAhead.map fun op => (op, op.token, none) := by
  unfold Tree.operatorsAhead
  induction folds with
  | whole foldable performs =>
    rw [foldableParts_of_isFoldable foldable, List.flatMap_singleton]
    exact performs.operators
  | constant fixed =>
    rw [foldableParts, if_neg (by exact fixed)]
    rfl
  | unary fixed _ ih => rw [foldableParts, if_neg fixed, ih]
  | group fixed _ ih => rw [foldableParts, if_neg (by exact fixed), ih]
  | binary fixed _ _ leftIh rightIh =>
    rw [foldableParts, if_neg fixed, List.map_append, leftIh, rightIh, List.flatMap_append, List.map_append]

/-- Each operator of a tree either is called ahead or stays in the tree. -/
theorem FoldsTo.perm (folds : t.FoldsTo s calls u s') :
    (t.operatorsAhead ++ u.operators).Perm t.operators := by
  unfold Tree.operatorsAhead
  induction folds with
  | whole foldable _ =>
    rw [foldableParts_of_isFoldable foldable, List.flatMap_singleton, Tree.operators, List.append_nil]
  | constant fixed =>
    rw [foldableParts, if_neg (by exact fixed)]
    rfl
  | unary fixed _ ih =>
    rw [foldableParts, if_neg fixed, Tree.operators, ← List.append_assoc]
    exact ih.append_right _
  | group fixed _ ih =>
    rw [foldableParts, if_neg (by exact fixed)]
    exact ih
  | @binary op _ t t' u u' _ _ _ _ _ fixed _ _ leftIh rightIh =>
    rw [foldableParts, if_neg fixed, List.flatMap_append, Tree.operators, Tree.operators, ← List.append_assoc]
    refine .append_right _ (.trans ?_ (leftIh.append rightIh))
    rw [List.append_assoc, List.append_assoc]
    exact .append_left _ (List.perm_append_comm_assoc _ _ _)

end Tree

/-! ## Compilers -/

/-- The same operators, each of which notes its calls. -/
def Vocabulary.recorded (v : Vocabulary (StateM σ) C) : Vocabulary (StateM (σ × List (Call σ C))) C where
  binary := v.binary.map fun op => op.noting (Call.mk op)
  unary := v.unary.map fun op => op.noting (Call.mk op)
  constants := v.constants.map fun op => op.noting (Call.mk op)

theorem Vocabulary.related_recorded (v : Vocabulary (StateM σ) C) :
    v.Related (fun op noting => noting = op.noting (Call.mk op)) v.recorded := by
  have table : ∀ ops : List (Operator (StateM σ) C),
      List.Forall₂ (fun op noting => noting = op.noting (Call.mk op)) ops
        (ops.map fun op => op.noting (Call.mk op)) := by
    intro ops
    rw [List.forall₂_map_right_iff, List.forall₂_same]
    exact fun _ _ => rfl
  exact ⟨table _, table _, table _⟩

theorem Tree.Related.eq_recorded {t : Tree (StateM σ) C} {u : Tree (StateM (σ × List (Call σ C))) C}
    (related : t.Related (fun op noting => noting = op.noting (Call.mk op)) u) : u = t.recorded := by
  unfold recorded
  induction related with
  | leaf => rfl
  | constant op => rw [op, mapOperators]
  | unary op _ ih => rw [op, ih, mapOperators]
  | group _ ih => rw [ih, mapOperators]
  | binary op _ _ _ leftIh rightIh => rw [op, leftIh, rightIh, mapOperators]

/-- Operators that note their calls are read as those that do not. -/
theorem Grammar.parse_recorded (v : Vocabulary (StateM σ) C) (spacing : Spacing) (text : String)
    (offset : Nat) :
    (ofVocabulary v.recorded spacing).parse text offset =
      Tree.recorded <$> (ofVocabulary v spacing).parse text offset := by
  have related := ofVocabulary_related (fun _ _ (same : _ = Operator.noting _ _) => same ▸ rfl)
    v.related_recorded spacing
  have parsed := related.parse text offset
  generalize (ofVocabulary v spacing).parse text offset = x at parsed ⊢
  generalize (ofVocabulary v.recorded spacing).parse text offset = y at parsed ⊢
  cases parsed with
  | error e => rfl
  | ok tree => exact congrArg Except.ok tree.eq_recorded

namespace Compiler

section

variable {c : Compiler (StateM σ) C} {text : String} {offset : Nat} {fresh : Bool}

theorem run_compileFrom_of_kept {kept : Shared (Tree (StateM σ) C)}
    (found : c.kept? text offset fresh = some kept) (s : σ) :
    Id.run ((c.compileFrom text offset fresh).run s) = ((.ok kept, c), s) := by
  unfold kept? at found
  simp only [compileFrom, found]
  rfl

/-- A tree is folded from some state, and from the present one unless it is remembered. -/
theorem Reached.exists_start {g : Grammar (StateM σ) C} (reached : Reached (ofGrammar g) c) {s : σ}
    {t : Tree (StateM σ) C} (given : c.result text offset fresh s = .ok t) :
    ∃ parsed start, g.parse text offset = .ok parsed ∧ t = (Id.run (parsed.fold.run start)).1 ∧
      (c.kept? text offset fresh = none → start = s ∧
        (Id.run ((c.compileFrom text offset fresh).run s)).2 = (Id.run (parsed.fold.run s)).2) := by
  obtain ⟨parsed, start, parses, folded⟩ := reached.folds_of_result given
  cases found : c.kept? text offset fresh with
  | some kept => exact ⟨parsed, start, parses, folded, nofun⟩
  | none =>
    have answer := answerFrom_of_missing found s
    rw [reached.sound.grammar, parses, answerFrom, given] at answer
    obtain ⟨same, after⟩ := Prod.mk.inj answer
    exact ⟨parsed, s, parses, Except.ok.inj same, fun _ => ⟨rfl, after⟩⟩

/-- A closure that is not remembered is made from a tree that is made for it alone. -/
theorem run_compileClosure (c : Compiler (StateM σ) C) (text : String) (s : σ) :
    (Id.run ((c.compileClosure text).run s)).2 =
      if (c.closures.get? text).isSome then s else (Id.run ((c.compileFrom text 0 true).run s)).2 := by
  rw [compileClosure]
  cases c.closures.get? text with
  | some => rfl
  | none =>
    simp only [StateT.run_bind, Id.run_bind]
    obtain ⟨⟨answer, after⟩, s'⟩ := Id.run ((c.compileFrom text 0 true).run s)
    cases answer <;> rfl

end

/-- What compiling calls. A text that is read calls the operators of the largest foldable parts of its tree,
one part behind the other, once each and without a context. All other operators stay in the tree, whose evaluation
calls them once each with the context it has. Where a tree is remembered, and where a text has none, nothing is
called. A closure calls what the tree that is made for it calls. -/
theorem compiling_calls (v : Vocabulary (StateM σ) C) (spacing : Spacing) :
    (∀ (t n : Tree (StateM σ) C), n ∈ t.nodes →
      (n.isFoldable ↔ ∃ part ∈ t.foldableParts, n ∈ part.nodes)) ∧
    ∀ c, Reached (ofVocabulary v.recorded spacing) c → ∀ text s earlier,
      (∀ offset fresh,
        (∀ kept, c.kept? text offset fresh = some kept →
          Id.run ((c.compileFrom text offset fresh).run (s, earlier)) = ((.ok kept, c), s, earlier)) ∧
        (∀ e, c.result text offset fresh (s, earlier) = .error e →
          (Id.run ((c.compileFrom text offset fresh).run (s, earlier))).2 = (s, earlier)) ∧
        ∀ t, c.result text offset fresh (s, earlier) = .ok t →
          ∃ parsed u, (Grammar.ofVocabulary v spacing).parse text offset = .ok parsed ∧ t = u.recorded ∧
            (parsed.operatorsAhead ++ u.operators).Perm parsed.operators ∧
            (c.kept? text offset fresh = none → ∃ calls s', parsed.FoldsTo s calls u s' ∧
              (Id.run ((c.compileFrom text offset fresh).run (s, earlier))).2 = (s', earlier ++ calls) ∧
              calls.map (fun call => (call.op, call.token, call.context)) =
                parsed.operatorsAhead.map fun op => (op, op.token, none)) ∧
            ∀ context s earlier, ∃ calls value s', u.Performs context s calls value s' ∧
              Id.run ((t.eval context).run (s, earlier)) = (value, s', earlier ++ calls) ∧
              calls.map (fun call => (call.op, call.token, call.context)) =
                u.operators.map fun op => (op, op.token, context)) ∧
      (Id.run ((c.compileClosure text).run (s, earlier))).2 =
        if (c.closures.get? text).isSome then (s, earlier)
        else (Id.run ((c.compileFrom text 0 true).run (s, earlier))).2 := by
  refine ⟨fun t n => Tree.isFoldable_iff_exists_part, ?_⟩
  intro c reached text s earlier
  refine ⟨fun offset fresh => ⟨fun kept found => run_compileFrom_of_kept found _, ?_, ?_⟩,
    run_compileClosure c text _⟩
  · intro e refused
    have error := reached.result_eq_error.mp refused
    rw [← reached.sound.grammar] at error
    cases found : c.kept? text offset fresh with
    | some kept => rw [run_compileFrom_of_kept found]
    | none =>
      have answer := answerFrom_of_missing found (s, earlier)
      rw [error] at answer
      exact congrArg Prod.snd answer
  · intro t given
    obtain ⟨_, ⟨start, before⟩, parses, folded, now⟩ := reached.exists_start given
    rw [Grammar.parse_recorded] at parses
    cases parsed : (Grammar.ofVocabulary v spacing).parse text offset with
    | error e =>
      rw [parsed] at parses
      cases parses
    | ok tree =>
      rw [parsed] at parses
      cases parses
      obtain ⟨calls, u, s', folds⟩ := tree.exists_foldsTo start
      rw [folds.fold_recorded] at folded
      subst folded
      refine ⟨tree, u, rfl, rfl, folds.perm, fun missing => ?_, fun context s earlier => ?_⟩
      · obtain ⟨same, after⟩ := now missing
        cases same
        rw [folds.fold_recorded] at after
        exact ⟨calls, s', folds, after, folds.operatorsAhead⟩
      · obtain ⟨calls, value, s', performs⟩ := u.exists_performs context s
        exact ⟨calls, value, s', performs, performs.eval_recorded earlier, performs.operators⟩

/-- The sum in the group is called while the text is compiled, the count and the other sum when the tree is
evaluated. Without the closing bracket nothing is called. -/
theorem compiling_calls_counts :
    (∃ parsed u calls later value s',
      (Grammar.ofVocabulary .counter .wordsOnly).parse "next + (1 + 2)" 0 = .ok parsed ∧
      (parsed.operatorsAhead ++ u.operators).Perm parsed.operators ∧
      parsed.FoldsTo 7 calls u 7 ∧ calls.map (fun call => (call.token, call.context)) = [("+", none)] ∧
      u.Performs (some ()) 7 later value s' ∧
        later.map (fun call => (call.token, call.context)) = [("next", some ()), ("+", some ())]) ∧
    (Id.run (((ofVocabulary Vocabulary.counter.recorded .wordsOnly).compileFrom "next + (1 + 2" 0 false).run
      (7, []))).2 = (7, []) := by
  have calls := (compiling_calls .counter .wordsOnly).2 _ .start
  have compiled : ∃ t, (ofVocabulary Vocabulary.counter.recorded .wordsOnly).result "next + (1 + 2)" 0
      false (7, []) = .ok t ∧ (Id.run ((t.eval (some ())).run (7, []))).2.2.map
        (fun call => (call.token, call.context)) = [("next", some ()), ("+", some ())] := ⟨_, rfl, rfl⟩
  have ahead : ((Id.run (((ofVocabulary Vocabulary.counter.recorded .wordsOnly).compileFrom "next + (1 + 2)" 0
      false).run (7, []))).2.map id (·.map fun call => (call.token, call.context))) =
        (7, [("+", none)]) := rfl
  obtain ⟨t, given, evaluated⟩ := compiled
  obtain ⟨parsed, u, parses, _, perm, fresh, later⟩ := ((calls _ 7 []).1 0 false).2.2 t given
  obtain ⟨calls', s', folds, state, _⟩ := fresh rfl
  obtain ⟨calls'', value, s'', performs, ran, _⟩ := later (some ()) 7 []
  rw [state] at ahead
  rw [ran] at evaluated
  obtain ⟨rfl, called⟩ := Prod.mk.inj ahead
  exact ⟨⟨parsed, u, calls', calls'', value, s'', parses, perm, folds, called, performs, evaluated⟩,
    ((calls "next + (1 + 2" 7 []).1 0 false).2.1 (.unclosedBracket 7) rfl⟩

end Compiler

end Formula
