import Formula.Proofs.Effects
import Formula.Proofs.Slots

/-!
# Calls

Which operators a tree calls, in which order and with what. A closure makes the calls that evaluation
without a context makes, however often it is called and whatever happens to the state in between.
-/

namespace Formula

variable {σ κ C : Type}

/-! ## Notes of calls -/

/-- The same operator, which adds a note to those in the state each time it is called. -/
def Operator.noting (note : String → List Value → Option C → κ) (op : Operator (StateM σ) C) :
    Operator (StateM (σ × List κ)) C where
  token := op.token
  arity := op.arity
  foldable := op.foldable
  exec token operands context := modifyGet fun before =>
    let after := Id.run ((op.exec token operands context).run before.1)
    (after.1, after.2, before.2 ++ [note token operands context])

/-- The function of an operator called with a token, some operands and, if there is one, a context. -/
structure Call (σ C : Type) where
  op : Operator (StateM σ) C
  token : String
  operands : List Value
  context : Option C

/-- Whether a call from one state gives a value and leaves another state. -/
def Call.Gives (call : Call σ C) (before : σ) (value : Value) (after : σ) : Prop :=
  Id.run ((call.op.exec call.token call.operands call.context).run before) = (value, after)

namespace Tree

def mapOperators {m n : Type → Type} (f : Operator m C → Operator n C) : Tree m C → Tree n C
  | .leaf value => .leaf value
  | .constant op => .constant (f op)
  | .unary op operand => .unary (f op) (operand.mapOperators f)
  | .group inner => .group (inner.mapOperators f)
  | .binary op priority left right =>
    .binary (f op) priority (left.mapOperators f) (right.mapOperators f)

/-- The tree whose operators note each call. -/
def recorded (t : Tree (StateM σ) C) : Tree (StateM (σ × List (Call σ C))) C :=
  t.mapOperators fun op => op.noting (Call.mk op)

/-! ## The calls of a tree -/

/-- From one state, a tree makes some calls, has a value, and leaves another state. The calls of the
left operand come first, then those of the right operand, then the node's own. -/
inductive Performs (context : Option C) : Tree (StateM σ) C → σ → List (Call σ C) → Value → σ → Prop where
  | leaf (value : Value) (s : σ) : Performs context (.leaf value) s [] value s
  | constant {op : Operator (StateM σ) C} {s s' : σ} {value : Value}
      (own : Call.Gives ⟨op, op.token, [], context⟩ s value s') :
      Performs context (.constant op) s [⟨op, op.token, [], context⟩] value s'
  | unary {op : Operator (StateM σ) C} {t : Tree (StateM σ) C} {s s₁ s' : σ} {calls : List (Call σ C)}
      {a value : Value} (operand : Performs context t s calls a s₁)
      (own : Call.Gives ⟨op, op.token, [a], context⟩ s₁ value s') :
      Performs context (.unary op t) s (calls ++ [⟨op, op.token, [a], context⟩]) value s'
  | group {t : Tree (StateM σ) C} {s s' : σ} {calls : List (Call σ C)} {value : Value}
      (inner : Performs context t s calls value s') : Performs context (.group t) s calls value s'
  | binary {op : Operator (StateM σ) C} {priority : Nat} {t u : Tree (StateM σ) C} {s s₁ s₂ s' : σ}
      {calls calls' : List (Call σ C)} {a b value : Value} (left : Performs context t s calls a s₁)
      (right : Performs context u s₁ calls' b s₂)
      (own : Call.Gives ⟨op, op.token, [a, b], context⟩ s₂ value s') :
      Performs context (.binary op priority t u) s (calls ++ calls' ++ [⟨op, op.token, [a, b], context⟩]) value s'

variable {context : Option C} {t : Tree (StateM σ) C} {s s' : σ} {calls : List (Call σ C)} {value : Value}

theorem exists_performs (context : Option C) (t : Tree (StateM σ) C) (s : σ) :
    ∃ calls value s', t.Performs context s calls value s' := by
  induction t generalizing s with
  | leaf value => exact ⟨[], value, s, .leaf value s⟩
  | constant op => exact ⟨_, _, _, .constant rfl⟩
  | unary op operand ih =>
    obtain ⟨calls, a, s₁, performs⟩ := ih s
    exact ⟨_, _, _, .unary performs rfl⟩
  | group inner ih =>
    obtain ⟨calls, value, s', performs⟩ := ih s
    exact ⟨calls, value, s', .group performs⟩
  | binary op priority left right leftIh rightIh =>
    obtain ⟨calls, a, s₁, first⟩ := leftIh s
    obtain ⟨calls', b, s₂, second⟩ := rightIh s₁
    exact ⟨_, _, _, .binary first second rfl⟩

theorem Performs.eval (performs : t.Performs context s calls value s') :
    Id.run ((t.eval context).run s) = (value, s') := by
  induction performs with
  | leaf => rfl
  | constant own => exact own
  | unary _ own ih =>
    simp only [Tree.eval, StateT.run_bind, Id.run_bind, ih]
    exact own
  | group _ ih => exact ih
  | binary _ _ own leftIh rightIh =>
    simp only [Tree.eval, StateT.run_bind, Id.run_bind, leftIh, rightIh]
    exact own

theorem run_noting {op : Operator (StateM σ) C} {operands : List Value}
    (own : Call.Gives ⟨op, op.token, operands, context⟩ s value s')
    (note : String → List Value → Option C → κ) (notes : List κ) :
    Id.run (((op.noting note).run operands context).run (s, notes)) =
      (value, s', notes ++ [note op.token operands context]) := by
  have ran : Id.run ((op.run operands context).run s) = (value, s') := own
  change ((Id.run ((op.run operands context).run s)).1, (Id.run ((op.run operands context).run s)).2,
    notes ++ [note op.token operands context]) = _
  rw [ran]

/-- What a tree is recorded to call is what it performs. -/
theorem Performs.eval_recorded (performs : t.Performs context s calls value s')
    (earlier : List (Call σ C)) :
    Id.run ((t.recorded.eval context).run (s, earlier)) = (value, s', earlier ++ calls) := by
  unfold recorded
  induction performs generalizing earlier with
  | leaf =>
    rw [List.append_nil]
    rfl
  | constant own => exact run_noting own _ earlier
  | unary _ own ih =>
    simp only [mapOperators, Tree.eval, StateT.run_bind, Id.run_bind, ih]
    rw [← List.append_assoc]
    exact run_noting own _ _
  | group _ ih => exact ih earlier
  | binary _ _ own leftIh rightIh =>
    simp only [mapOperators, Tree.eval, StateT.run_bind, Id.run_bind, leftIh, rightIh]
    rw [← List.append_assoc, ← List.append_assoc]
    exact run_noting own _ _

/-! ## Calling again and again -/

/-- The calls of each time, and the values. Before each time the state changes in some way. -/
inductive PerformsEach (context : Option C) (t : Tree (StateM σ) C) :
    List (σ → σ) → σ → List (Call σ C) → List Value → σ → Prop where
  | nil (s : σ) : PerformsEach context t [] s [] [] s
  | cons {change : σ → σ} {changes : List (σ → σ)} {s s₁ s' : σ} {calls calls' : List (Call σ C)}
      {value : Value} {values : List Value} (first : t.Performs context (change s) calls value s₁)
      (later : PerformsEach context t changes s₁ calls' values s') :
      PerformsEach context t (change :: changes) s (calls ++ calls') (value :: values) s'

end Tree

/-- Calls a closure once behind each change of the state. -/
def Closure.each (call : Closure (StateM σ)) : List (σ → σ) → StateM σ (List Value)
  | [] => pure []
  | change :: changes => do
    modify change
    let value ← call ()
    let values ← each call changes
    return value :: values

namespace Tree

variable {context : Option C} {t : Tree (StateM σ) C} {changes : List (σ → σ)} {s s' : σ}
  {calls : List (Call σ C)} {values : List Value}

theorem exists_performsEach (context : Option C) (t : Tree (StateM σ) C) (changes : List (σ → σ))
    (s : σ) : ∃ calls values s', t.PerformsEach context changes s calls values s' := by
  induction changes generalizing s with
  | nil => exact ⟨[], [], s, .nil s⟩
  | cons change changes ih =>
    obtain ⟨calls, value, s₁, first⟩ := exists_performs context t (change s)
    obtain ⟨calls', values, s', later⟩ := ih s₁
    exact ⟨_, _, _, .cons first later⟩

theorem PerformsEach.each_eval (performs : t.PerformsEach context changes s calls values s') :
    Id.run ((Closure.each (fun _ => t.eval context) changes).run s) = (values, s') := by
  induction performs with
  | nil => rfl
  | @cons change _ s _ _ _ _ _ _ first _ ih =>
    have changed : Id.run ((modify change : StateM σ PUnit).run s) = (⟨⟩, change s) := rfl
    simp only [Closure.each, StateT.run_bind, Id.run_bind, changed, first.eval, ih]
    rfl

theorem PerformsEach.each_eval_recorded (performs : t.PerformsEach context changes s calls values s')
    (earlier : List (Call σ C)) :
    Id.run ((Closure.each (fun _ => t.recorded.eval context) (changes.map (Prod.map · id))).run
      (s, earlier)) = (values, s', earlier ++ calls) := by
  induction performs generalizing earlier with
  | nil =>
    rw [List.append_nil]
    rfl
  | @cons change _ s _ _ _ _ _ _ first _ ih =>
    have changed : Id.run ((modify (Prod.map change id) : StateM (σ × List (Call σ C)) PUnit).run
        (s, earlier)) = (⟨⟩, change s, earlier) := rfl
    simp only [Closure.each, List.map_cons, StateT.run_bind, Id.run_bind, changed, first.eval_recorded, ih,
      List.append_assoc]
    rfl

end Tree

namespace Compiler

/-- Calling the closure of a tree again and again, whatever happens to the state in between, makes the
calls of evaluation without a context each time, gives the same values and leaves the same state. Nodes with
places for children, which hand their tokens to their functions, have the same closure and the same value. And
whatever a compiler has been asked before, a text without a tree has no closure, for the same reason. -/
theorem closures_perform (v : Vocabulary (StateM σ) C) (spacing : Spacing) :
    (∀ (t : Tree (StateM σ) C) (changes : List (σ → σ)) (s : σ) (earlier : List (Call σ C)),
      ∃ calls values s', t.PerformsEach none changes s calls values s' ∧
        Id.run ((Closure.each t.toClosure changes).run s) = (values, s') ∧
        Id.run ((Closure.each (fun _ => t.eval none) changes).run s) = (values, s') ∧
        Id.run ((Closure.each t.recorded.toClosure (changes.map (Prod.map · id))).run (s, earlier)) =
          (values, s', earlier ++ calls) ∧
        Id.run ((Closure.each (fun _ => t.recorded.eval none) (changes.map (Prod.map · id))).run
          (s, earlier)) = (values, s', earlier ++ calls)) ∧
    (∀ t : Tree (StateM σ) C, t.toSlot.toClosure = t.toClosure ∧ t.toSlot.eval none = t.eval none) ∧
    ∀ c, Reached (ofVocabulary v spacing) c → ∀ text s s' e,
      (Id.run ((c.compileClosure text).run s)).1.1 = .error e ↔
        (Id.run ((c.compile text).run s')).1.1 = .error e := by
  refine ⟨?_, fun t => ⟨t.toClosure_toSlot, t.eval_toSlot none⟩, ?_⟩
  · intro t changes s earlier
    obtain ⟨calls, values, s', performs⟩ := t.exists_performsEach none changes s
    have closure : t.toClosure = fun _ => t.eval none := funext fun _ => t.toClosure_eq_eval
    have recorded : t.recorded.toClosure = fun _ => t.recorded.eval none :=
      funext fun _ => t.recorded.toClosure_eq_eval
    rw [closure, recorded]
    exact ⟨calls, values, s', performs, performs.each_eval, performs.each_eval,
      performs.each_eval_recorded earlier, performs.each_eval_recorded earlier⟩
  · intro c reached text s s' e
    have sound := reached.sound
    rw [(sound.compileClosure text s).1 e, compile, (sound.compileFrom text 0 false s').error e]

/-- The sum of two counts, counted from 5 and then from where that has left off. -/
theorem closures_perform_counts :
    (∃ calls, (Tree.binary (Vocabulary.pureBinary "+" .plus) 1 (.constant .next)
          (.group (.constant .next))).PerformsEach none [(· + 5), id] 0 calls
        [.plus (.number (.ofNat 5)) (.number (.ofNat 6)), .plus (.number (.ofNat 7)) (.number (.ofNat 8))]
        9 ∧
      (calls.map fun call => (call.token, call.operands)) =
        [("next", []), ("next", []), ("+", [.number (.ofNat 5), .number (.ofNat 6)]),
          ("next", []), ("next", []), ("+", [.number (.ofNat 7), .number (.ofNat 8)])]) ∧
    ∀ s s', (Id.run (((ofVocabulary .counter .wordsOnly).compileClosure "next + (1").run s)).1.1 =
        .error (.unclosedBracket 7) ↔
      (Id.run (((ofVocabulary .counter .wordsOnly).compile "next + (1").run s')).1.1 =
        .error (.unclosedBracket 7) := by
  have perform := closures_perform .counter .wordsOnly
  refine ⟨?_, fun s s' => perform.2.2 _ .start _ s s' _⟩
  obtain ⟨calls, values, s', each, closure, _, recorded, _⟩ :=
    perform.1 (.binary (Vocabulary.pureBinary "+" .plus) 1 (.constant .next) (.group (.constant .next)))
      [(· + 5), id] 0 []
  obtain ⟨rfl, rfl⟩ := Prod.mk.inj closure
  refine ⟨calls, each, ?_⟩
  exact (congrArg (fun last => last.2.2.map fun call => (call.token, call.operands)) recorded).symm

end Compiler

end Formula
