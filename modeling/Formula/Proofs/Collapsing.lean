import Formula.Proofs.Shapes

/-!
# Collapsed trees

What collapsing makes of trees whose nodes have the shapes of leaves, constants, unary and binary
operators, whatever their labels, priorities, functions and flags are. Nothing is left to collapse: only
leaves are foldable, and collapsing again calls no function.
-/

namespace Formula

variable {m : Type → Type} {σ C : Type}

namespace Slot

/-- Whether all nodes have the shape of a leaf, a constant, a unary or a binary operator. Leaves are foldable. -/
inductive Shaped : Slot m C → Prop where
  | leaf (label : Value) (priority : Nat) : Shaped (.node label priority none true .empty .empty)
  | constant (label : Value) (priority : Nat) (exec : Operation m C) (foldable : Bool) :
      Shaped (.node label priority (some exec) foldable .empty .empty)
  | unary (label : Value) (priority : Nat) (exec : Operation m C) (foldable : Bool)
      {operand : Slot m C} (inner : Shaped operand) :
      Shaped (.node label priority (some exec) foldable operand .empty)
  | binary (label : Value) (priority : Nat) (exec : Operation m C) (foldable : Bool)
      {left right : Slot m C} (onLeft : Shaped left) (onRight : Shaped right) :
      Shaped (.node label priority (some exec) foldable left right)

/-- Whether only the leaves are foldable. -/
def Canonical (root : Slot m C) : Prop :=
  ∀ n ∈ root.nodes, n.isFoldable ↔ n.HasKind .leaf

/-- Other functions in the places of those of the nodes. -/
def mapFunctions {n : Type → Type} {D : Type} (f : Operation m C → Operation n D) :
    Slot m C → Slot n D
  | .empty => .empty
  | .node label priority exec foldable left right =>
    .node label priority (exec.map f) foldable (left.mapFunctions f) (right.mapFunctions f)

/-- Whether collapsing changes nothing and calls no function: it does nothing whatever functions stand in the
places of those of the nodes. -/
def Settled (root : Slot m C) : Prop :=
  ∀ {n : Type → Type} [Monad n] [LawfulMonad n] {D : Type} (f : Operation m C → Operation n D),
      (root.mapFunctions f).collapse = pure (root.mapFunctions f)

/-- What collapsing leaves of a tree, from one state to another. Each largest foldable part becomes a leaf with
its value. A node that is not foldable stays what it is and has as many children, with what is left of them. -/
inductive Collapses : Slot (StateM σ) C → σ → Slot (StateM σ) C → σ → Prop where
  | empty (s : σ) : Collapses .empty s .empty s
  | leaf {n : Slot (StateM σ) C} (kind : n.HasKind .leaf) (s : σ) : Collapses n s n s
  | value {n : Slot (StateM σ) C} {s s' : σ} {value : Value} (operator : n.exec.isSome)
      (foldable : n.isFoldable)
      (evaluated : Id.run ((n.eval none).run s) = (value, s')) : Collapses n s (.leaf value) s'
  | kept {label : Value} {priority : Nat} {exec : Option (Operation (StateM σ) C)}
      {foldable : Bool} {left right left' right' : Slot (StateM σ) C} {s s₁ s' : σ}
      (fixed : (node label priority exec foldable left right).isFoldable = false)
      (onLeft : Collapses left s left' s₁) (onRight : Collapses right s₁ right' s')
      (sameLeft : left'.isEmpty = left.isEmpty) (sameRight : right'.isEmpty = right.isEmpty) :
      Collapses (.node label priority exec foldable left right) s
        (.node label priority exec foldable left' right') s'

section

variable {root n left right : Slot m C}

theorem mem_nodes_node {label : Value} {priority : Nat} {exec : Option (Operation m C)}
    {foldable : Bool} : n ∈ (node label priority exec foldable left right).nodes ↔
      n = .node label priority exec foldable left right ∨ n ∈ left.nodes ∨ n ∈ right.nodes := by
  rw [nodes, List.mem_cons, List.mem_append]

theorem canonical_empty : (empty : Slot m C).Canonical :=
  nofun

theorem canonical_node {label : Value} {priority : Nat} {exec : Option (Operation m C)}
    {foldable : Bool} : (node label priority exec foldable left right).Canonical ↔
      ((node label priority exec foldable left right).isFoldable ↔
        (node label priority exec foldable left right).HasKind .leaf) ∧ left.Canonical ∧ right.Canonical := by
  simp only [Canonical, mem_nodes_node, or_imp, forall_and, forall_eq]

theorem canonical_leaf {label : Value} {priority : Nat} :
    (node label priority none true empty empty : Slot m C).Canonical :=
  canonical_node.mpr ⟨⟨fun _ => ⟨rfl, rfl, rfl⟩, fun _ => rfl⟩, canonical_empty, canonical_empty⟩

theorem canonical_of_fixed {label : Value} {priority : Nat} {exec : Operation m C}
    {foldable : Bool} (fixed : (node label priority (some exec) foldable left right).isFoldable = false)
    (onLeft : left.Canonical) (onRight : right.Canonical) :
    (node label priority (some exec) foldable left right).Canonical := by
  refine canonical_node.mpr ⟨?_, onLeft, onRight⟩
  rw [fixed]
  exact ⟨nofun, fun kind => Bool.noConfusion kind.1⟩

theorem fixed_of_canonical {label : Value} {priority : Nat} {exec : Operation m C}
    {foldable : Bool} (canonical : (node label priority (some exec) foldable left right).Canonical) :
    (node label priority (some exec) foldable left right).isFoldable = false := by
  rw [← Bool.not_eq_true, (canonical_node.mp canonical).1]
  exact fun kind => Bool.noConfusion kind.1

/-- A tree in which only the leaves are foldable is left as it is. -/
theorem Shaped.collapse_eq [Monad m] [LawfulMonad m] (shaped : root.Shaped) (canonical : root.Canonical) :
    root.collapse = pure root := by
  have empty : (empty : Slot m C).collapse = pure .empty := rfl
  induction shaped with
  | leaf => rfl
  | constant label priority exec foldable =>
    rw [collapse, fixed_of_canonical canonical, empty]
    simp only [Bool.false_eq_true, if_false, pure_bind]
  | unary label priority exec foldable inner ih =>
    rw [collapse, fixed_of_canonical canonical, ih (canonical_node.mp canonical).2.1, empty]
    simp only [Bool.false_eq_true, if_false, pure_bind]
  | binary label priority exec foldable onLeft onRight leftIh rightIh =>
    obtain ⟨_, canonicalLeft, canonicalRight⟩ := canonical_node.mp canonical
    rw [collapse, fixed_of_canonical canonical, leftIh canonicalLeft, rightIh canonicalRight]
    simp only [Bool.false_eq_true, if_false, pure_bind]

end

section

variable {n : Type → Type} {D : Type} {root : Slot m C} (f : Operation m C → Operation n D)

theorem isEmpty_mapFunctions (root : Slot m C) : (root.mapFunctions f).isEmpty = root.isEmpty := by
  cases root <;> rfl

@[simp] theorem isFoldable_mapFunctions (root : Slot m C) : (root.mapFunctions f).isFoldable = root.isFoldable := by
  induction root with
  | empty => rfl
  | node label priority exec foldable left right leftIh rightIh =>
    rw [mapFunctions, isFoldable, leftIh, rightIh, isFoldable]

theorem Shaped.mapFunctions (shaped : root.Shaped) : (root.mapFunctions f).Shaped := by
  induction shaped with
  | leaf label priority => exact .leaf label priority
  | constant label priority exec foldable => exact .constant label priority (f exec) foldable
  | unary label priority exec foldable _ ih => exact .unary label priority (f exec) foldable ih
  | binary label priority exec foldable _ _ leftIh rightIh =>
    exact .binary label priority (f exec) foldable leftIh rightIh

theorem Canonical.mapFunctions (canonical : root.Canonical) : (root.mapFunctions f).Canonical := by
  induction root with
  | empty => exact canonical_empty
  | node label priority exec foldable left right leftIh rightIh =>
    obtain ⟨top, onLeft, onRight⟩ := canonical_node.mp canonical
    refine canonical_node.mpr ⟨?_, leftIh onLeft, rightIh onRight⟩
    have foldable' := isFoldable_mapFunctions f (node label priority exec foldable left right)
    rw [Slot.mapFunctions] at foldable'
    rw [foldable', top]
    simp only [HasKind, Option.isSome_map, isEmpty_mapFunctions]

/-- Whether there is anything to collapse does not depend on the functions. -/
theorem Shaped.settled (shaped : root.Shaped) (canonical : root.Canonical) : root.Settled :=
  fun f => (shaped.mapFunctions f).collapse_eq (canonical.mapFunctions f)

end

/-! ## What is left -/

variable {root left right folded : Slot (StateM σ) C} {s s' : σ}

/-- There is something left of each node. -/
theorem Collapses.isEmpty_eq (collapses : root.Collapses s folded s') : folded.isEmpty = root.isEmpty := by
  cases collapses with
  | empty | leaf | kept => rfl
  | value operator =>
    cases root with
    | empty => exact Bool.noConfusion operator
    | node => rfl

theorem Collapses.of_empty (collapses : (Slot.empty : Slot (StateM σ) C).Collapses s folded s') :
    folded = .empty := by
  cases collapses with
  | empty => rfl
  | leaf kind => exact kind.elim
  | value operator => exact Bool.noConfusion operator

/-- What is left of a tree is foldable if and only if the tree is. -/
theorem Collapses.isFoldable_eq (collapses : root.Collapses s folded s') :
    folded.isFoldable = root.isFoldable := by
  induction collapses with
  | empty | leaf => rfl
  | value _ foldable => exact foldable.symm
  | kept _ _ _ _ _ leftIh rightIh => rw [isFoldable, leftIh, rightIh, isFoldable]

/-- A parent that was not foldable does not become so when its children are folded, and only leaves are left
of the nodes that were. -/
theorem Shaped.canonical_of_collapses (shaped : root.Shaped) (collapses : root.Collapses s folded s') :
    folded.Shaped ∧ folded.Canonical := by
  induction shaped generalizing s folded s' with
  | leaf label priority =>
    cases collapses with
    | leaf => exact ⟨.leaf label priority, canonical_leaf⟩
    | value => exact ⟨.leaf _ 0, canonical_leaf⟩
    | kept fixed => cases fixed
  | constant label priority exec foldable =>
    have same := collapses.isFoldable_eq
    cases collapses with
    | leaf kind => exact Bool.noConfusion kind.1
    | value => exact ⟨.leaf _ 0, canonical_leaf⟩
    | kept fixed onLeft onRight =>
      obtain rfl := onLeft.of_empty
      obtain rfl := onRight.of_empty
      exact ⟨.constant label priority exec foldable,
        canonical_of_fixed (same.trans fixed) canonical_empty canonical_empty⟩
  | unary label priority exec foldable _ ih =>
    have same := collapses.isFoldable_eq
    cases collapses with
    | leaf kind => exact Bool.noConfusion kind.1
    | value => exact ⟨.leaf _ 0, canonical_leaf⟩
    | kept fixed onLeft onRight =>
      obtain rfl := onRight.of_empty
      obtain ⟨shaped, canonical⟩ := ih onLeft
      exact ⟨.unary label priority exec foldable shaped,
        canonical_of_fixed (same.trans fixed) canonical canonical_empty⟩
  | binary label priority exec foldable _ _ leftIh rightIh =>
    have same := collapses.isFoldable_eq
    cases collapses with
    | leaf kind => exact Bool.noConfusion kind.1
    | value => exact ⟨.leaf _ 0, canonical_leaf⟩
    | kept fixed onLeft onRight =>
      obtain ⟨shapedLeft, canonicalLeft⟩ := leftIh onLeft
      obtain ⟨shapedRight, canonicalRight⟩ := rightIh onRight
      exact ⟨.binary label priority exec foldable shapedLeft shapedRight,
        canonical_of_fixed (same.trans fixed) canonicalLeft canonicalRight⟩

/-- Whether what collapsing leaves from any state is what it should. -/
def Folds (root : Slot (StateM σ) C) : Prop :=
  ∀ s, root.Collapses s (Id.run (root.collapse.run s)).1 (Id.run (root.collapse.run s)).2

theorem folds_empty : (Slot.empty : Slot (StateM σ) C).Folds :=
  .empty

theorem Folds.node {label : Value} {priority : Nat} {exec : Operation (StateM σ) C}
    {foldable : Bool} (onLeft : left.Folds) (onRight : right.Folds) :
    (Slot.node label priority (some exec) foldable left right).Folds := by
  intro s
  by_cases whole : (Slot.node label priority (some exec) foldable left right).isFoldable
  · rw [collapse, if_pos whole]
    exact .value rfl whole rfl
  · rw [collapse, if_neg whole]
    exact .kept (eq_false_of_ne_true whole) (onLeft s) (onRight _) (onLeft s).isEmpty_eq
      (onRight _).isEmpty_eq

theorem Shaped.folds (shaped : root.Shaped) : root.Folds := by
  induction shaped with
  | leaf => exact .leaf ⟨rfl, rfl, rfl⟩
  | constant => exact folds_empty.node folds_empty
  | unary _ _ _ _ _ ih => exact ih.node folds_empty
  | binary _ _ _ _ _ _ leftIh rightIh => exact leftIh.node rightIh

end Slot

/-! ## Trees of texts -/

theorem Tree.shaped_toSlot [Monad m] (t : Tree m C) : t.toSlot.Shaped := by
  induction t with
  | leaf value => exact .leaf value 0
  | constant op => exact .constant _ 0 op.exec op.foldable
  | unary op operand ih => exact .unary _ 0 op.exec op.foldable ih
  | group inner ih => exact .unary _ 0 Slot.passOn true ih
  | binary op priority left right leftIh rightIh =>
    exact .binary _ priority op.exec op.foldable leftIh rightIh

theorem Tree.fold_eq [Monad m] [LawfulMonad m] {t : Tree m C} (canonical : t.toSlot.Canonical) :
    t.fold = pure t := by
  induction t with
  | leaf => rfl
  | constant op =>
    have fixed : (constant op).isFoldable = false :=
      (isFoldable_toSlot _).symm.trans (Slot.fixed_of_canonical canonical)
    exact if_neg (ne_true_of_eq_false fixed)
  | unary op operand ih =>
    have fixed : (unary op operand).isFoldable = false :=
      (isFoldable_toSlot _).symm.trans (Slot.fixed_of_canonical canonical)
    rw [fold, if_neg (ne_true_of_eq_false fixed), ih (Slot.canonical_node.mp canonical).2.1, map_pure]
  | group inner ih =>
    have fixed : inner.isFoldable = false :=
      (isFoldable_toSlot (group inner)).symm.trans (Slot.fixed_of_canonical canonical)
    rw [fold, if_neg (ne_true_of_eq_false fixed), ih (Slot.canonical_node.mp canonical).2.1, map_pure]
  | binary op priority left right leftIh rightIh =>
    have fixed : (binary op priority left right).isFoldable = false :=
      (isFoldable_toSlot _).symm.trans (Slot.fixed_of_canonical canonical)
    obtain ⟨_, onLeft, onRight⟩ := Slot.canonical_node.mp canonical
    rw [fold, if_neg (ne_true_of_eq_false fixed), leftIh onLeft, rightIh onRight, pure_bind, pure_bind]

/-- Collapsing reaches a tree in which only the leaves are foldable, whatever the functions and the flags
are. Nodes that were not foldable stay what they are, and to collapse the tree once more does nothing at all.
The trees that are put together from texts have the shapes in question, and those that compilers give are
collapsed. -/
theorem Slot.collapse_canonical (v : Vocabulary (StateM σ) C) (spacing : Spacing) :
    (∀ root : Slot (StateM σ) C, root.Shaped → ∀ s folded s', Id.run (root.collapse.run s) = (folded, s') →
      root.Collapses s folded s' ∧ folded.Canonical ∧ folded.collapse = pure folded ∧ folded.Settled) ∧
    (∀ text offset root, (Grammar.ofVocabulary v spacing).assemble text offset = .ok root → root.Shaped) ∧
    ∀ c, Compiler.Reached (.ofVocabulary v spacing) c → ∀ text offset fresh s t,
      c.result text offset fresh s = .ok t →
        t.toSlot.Canonical ∧ t.toSlot.Settled ∧ t.toSlot.collapse = pure t.toSlot ∧ t.fold = pure t := by
  have collapsed : ∀ root : Slot (StateM σ) C, root.Shaped → ∀ s folded s',
      Id.run (root.collapse.run s) = (folded, s') →
        root.Collapses s folded s' ∧ folded.Canonical ∧ folded.collapse = pure folded ∧ folded.Settled := by
    intro root shaped s folded s' ran
    have collapses := shaped.folds s
    rw [ran] at collapses
    obtain ⟨shaped', canonical⟩ := shaped.canonical_of_collapses collapses
    exact ⟨collapses, canonical, shaped'.collapse_eq canonical, shaped'.settled canonical⟩
  refine ⟨collapsed, ?_, ?_⟩
  · intro text offset root assembled
    obtain ⟨t, _, rfl⟩ := Grammar.exists_of_assemble assembled
    exact t.shaped_toSlot
  · intro c reached text offset fresh s t given
    obtain ⟨parsed, s', _, rfl⟩ := reached.folds_of_result given
    obtain ⟨_, canonical, fixed, settled⟩ :=
      collapsed _ parsed.shaped_toSlot s' _ _ (Grammar.run_collapse_toSlot parsed s')
    exact ⟨canonical, settled, fixed, Tree.fold_eq canonical⟩

/-- The group is collapsed, the sum that counts is not, and nothing more is to collapse. -/
theorem Slot.collapse_canonical_counts :
    (∃ root, (Grammar.ofVocabulary .counter .wordsOnly).assemble "next + (1 + 2)" 0 = .ok root ∧
      root.Shaped ∧ root.nodes.length = 6 ∧
        ∃ folded, Id.run (root.collapse.run 7) = (folded, 7) ∧ folded.nodes.length = 3 ∧
          root.Collapses 7 folded 7 ∧ folded.Canonical ∧ folded.collapse = pure folded) ∧
    ∃ t, (Compiler.ofVocabulary .counter .wordsOnly).result "next + (1 + 2)" 0 false 7 = .ok t ∧
      t.fold = pure t := by
  obtain ⟨collapsed, shapes, given⟩ := collapse_canonical .counter .wordsOnly
  have raw : ∃ root, (Grammar.ofVocabulary .counter .wordsOnly).assemble "next + (1 + 2)" 0 = .ok root ∧
      root.nodes.length = 6 ∧ (Id.run (root.collapse.run 7)).1.nodes.length = 3 ∧
        (Id.run (root.collapse.run 7)).2 = 7 := ⟨_, rfl, rfl, rfl, rfl⟩
  have compiled : ∃ t, (Compiler.ofVocabulary .counter .wordsOnly).result "next + (1 + 2)" 0 false 7 = .ok t :=
    ⟨_, rfl⟩
  constructor
  · obtain ⟨root, assembled, length, left, state⟩ := raw
    have shaped := shapes _ _ root assembled
    have ran : Id.run (root.collapse.run 7) = ((Id.run (root.collapse.run 7)).1, 7) := Prod.ext rfl state
    obtain ⟨collapses, canonical, fixed, _⟩ := collapsed root shaped 7 _ 7 ran
    exact ⟨root, assembled, shaped, length, _, ran, left, collapses, canonical, fixed⟩
  · obtain ⟨t, compiled⟩ := compiled
    exact ⟨t, compiled, (given _ .start _ _ false 7 t compiled).2.2.2⟩

end Formula
