import Formula.Proofs.Calls
import Formula.Proofs.Drafts
import Formula.Proofs.Parts

/-!
# Shapes

Which places of a node are taken, what its priority says, and how many operands the functions of each
table are called with.
-/

namespace Formula

variable {m : Type → Type} {σ C : Type}

/-! ## Nodes -/

namespace Slot

/-- All nodes: each before its children, the left before the right. -/
def nodes : Slot m C → List (Slot m C)
  | .empty => []
  | n@(.node _ _ _ _ left right) => n :: (left.nodes ++ right.nodes)

def label : Slot m C → Value
  | .empty => .absent
  | .node label .. => label

def priority : Slot m C → Nat
  | .empty => 0
  | .node _ priority .. => priority

def exec : Slot m C → Option (Operation m C)
  | .empty => none
  | .node _ _ exec .. => exec

inductive Kind where
  | leaf
  | constant
  | unary
  | binary

/-- Whether a node has a function, a left child and a right child as its kind says. -/
def HasKind : Slot m C → Kind → Prop
  | .empty, _ => False
  | .node _ _ exec _ left right, .leaf => exec.isSome = false ∧ left.isEmpty ∧ right.isEmpty
  | .node _ _ exec _ left right, .constant => exec.isSome ∧ left.isEmpty ∧ right.isEmpty
  | .node _ _ exec _ left right, .unary => exec.isSome ∧ left.isEmpty = false ∧ right.isEmpty
  | .node _ _ exec _ left right, .binary => exec.isSome ∧ left.isEmpty = false ∧ right.isEmpty = false

theorem HasKind.unique {n : Slot m C} {kind other : Kind} (first : n.HasKind kind)
    (second : n.HasKind other) : kind = other := by
  cases n with
  | empty => exact first.elim
  | node label priority exec foldable left right =>
    cases kind <;> cases other <;> first | rfl | simp_all [HasKind]

/-- Whether a node has the token and the function of an operator. -/
def Carries (n : Slot m C) (op : Operator m C) : Prop :=
  n.label = .string op.token ∧ n.exec = some op.exec

/-- Whether a node is of one kind, has a priority if it is binary, and stands for an operator of its
table. A priority is one more than a place in the table of the binary operators. -/
structure WellFormedNode [Monad m] (v : Vocabulary m C) (n : Slot m C) : Prop where
  kind : ∃! kind, n.HasKind kind
  priority : 0 < n.priority ↔ n.HasKind .binary
  binary : ∀ k, n.priority = k + 1 → ∃ op, v.binary[k]? = some op ∧ n.Carries op
  unary : n.HasKind .unary →
    (∃ op ∈ v.unary, n.Carries op) ∨ n.label = .string Tree.groupToken ∧ n.exec = some passOn
  constant : n.HasKind .constant → ∃ op ∈ v.constants, n.Carries op

theorem HasKind.wellFormedNode [Monad m] {v : Vocabulary m C} {n : Slot m C} {kind : Kind}
    (has : n.HasKind kind) (priority : 0 < n.priority ↔ kind = .binary)
    (binary : ∀ k, n.priority = k + 1 → ∃ op, v.binary[k]? = some op ∧ n.Carries op)
    (unary : kind = .unary →
      (∃ op ∈ v.unary, n.Carries op) ∨ n.label = .string Tree.groupToken ∧ n.exec = some passOn)
    (constant : kind = .constant → ∃ op ∈ v.constants, n.Carries op) : n.WellFormedNode v := by
  refine ⟨⟨kind, has, fun other has' => has'.unique has⟩, ?_, binary, ?_, ?_⟩
  · rw [priority]
    exact ⟨fun same => same ▸ has, fun has' => has.unique has'⟩
  · exact fun has' => unary (has.unique has')
  · exact fun has' => constant (has.unique has')

structure WellFormed [Monad m] (v : Vocabulary m C) (top : Slot m C) : Prop where
  some : top.isEmpty = false
  nodes : ∀ n ∈ top.nodes, n.WellFormedNode v

end Slot

/-- The operators of a vocabulary, whatever the leaves. -/
def Vocabulary.parts (v : Vocabulary m C) : Parts m C where
  leaf _ := True
  constant op := op ∈ v.constants
  unary op := op ∈ v.unary
  binary op priority := ∃ place, v.binary[place]? = some op ∧ priority = place + 1

theorem Tree.MadeOf.imp {parts others : Parts m C} (leaf : ∀ value, parts.leaf value → others.leaf value)
    (constant : ∀ op, parts.constant op → others.constant op)
    (unary : ∀ op, parts.unary op → others.unary op)
    (binary : ∀ op priority, parts.binary op priority → others.binary op priority) {t : Tree m C}
    (made : t.MadeOf parts) : t.MadeOf others := by
  induction t with
  | leaf value => exact leaf value made
  | constant op => exact constant op made
  | unary op operand ih => exact ⟨unary op made.1, ih made.2⟩
  | group inner ih => exact ih made
  | binary op priority left right leftIh rightIh =>
    exact ⟨binary op priority made.1, leftIh made.2.1, rightIh made.2.2⟩

theorem Grammar.parse_madeOf_vocabulary {v : Vocabulary m C} {spacing : Spacing} {text : String}
    {offset : Nat} {t : Tree m C} (parsed : (ofVocabulary v spacing).parse text offset = .ok t) :
    t.MadeOf v.parts := by
  refine (parse_madeOf parsed).imp (fun _ _ => trivial) ?_ ?_ ?_
  · rintro _ ⟨entry, member, _, rfl, _⟩
    exact Entry.op_mem_of_mem_table member
  · rintro _ ⟨entry, member, _, rfl⟩
    exact Entry.op_mem_of_mem_table member
  · rintro _ _ ⟨entry, member, _, rfl, rfl⟩
    obtain ⟨op, place, found, rfl⟩ := Entry.mem_table.mp member
    exact ⟨place, found, rfl⟩

section

variable [Monad m] {v : Vocabulary m C}

theorem Tree.wellFormed_toSlot {t : Tree m C} (made : t.MadeOf v.parts) : t.toSlot.WellFormed v := by
  refine ⟨t.isEmpty_toSlot, ?_⟩
  induction t with
  | leaf value =>
    have kind : (leaf value : Tree m C).toSlot.HasKind .leaf := ⟨rfl, rfl, rfl⟩
    refine List.forall_mem_singleton.mpr (kind.wellFormedNode ?_ nofun nofun nofun)
    exact ⟨nofun, nofun⟩
  | constant op =>
    have kind : (constant op).toSlot.HasKind .constant := ⟨rfl, rfl, rfl⟩
    refine List.forall_mem_singleton.mpr (kind.wellFormedNode ?_ nofun nofun ?_)
    · exact ⟨nofun, nofun⟩
    · exact fun _ => ⟨op, made, rfl, rfl⟩
  | unary op operand ih =>
    have kind : (unary op operand).toSlot.HasKind .unary := ⟨rfl, operand.isEmpty_toSlot, rfl⟩
    refine List.forall_mem_cons.mpr ⟨kind.wellFormedNode ?_ nofun ?_ nofun, ?_⟩
    · exact ⟨nofun, nofun⟩
    · exact fun _ => Or.inl ⟨op, made.1, rfl, rfl⟩
    · rw [Slot.nodes, List.append_nil]
      exact ih made.2
  | group inner ih =>
    have kind : (group inner).toSlot.HasKind .unary := ⟨rfl, inner.isEmpty_toSlot, rfl⟩
    refine List.forall_mem_cons.mpr ⟨kind.wellFormedNode ?_ nofun ?_ nofun, ?_⟩
    · exact ⟨nofun, nofun⟩
    · exact fun _ => Or.inr ⟨rfl, rfl⟩
    · rw [Slot.nodes, List.append_nil]
      exact ih made
  | binary op priority left right leftIh rightIh =>
    have kind : (binary op priority left right).toSlot.HasKind .binary :=
      ⟨rfl, left.isEmpty_toSlot, right.isEmpty_toSlot⟩
    obtain ⟨⟨place, found, rfl⟩, onLeft, onRight⟩ := made
    refine List.forall_mem_cons.mpr ⟨kind.wellFormedNode ?_ ?_ nofun nofun, ?_⟩
    · exact ⟨fun _ => rfl, fun _ => Nat.succ_pos place⟩
    · rintro k ⟨⟩
      exact ⟨op, found, rfl, rfl⟩
    · exact List.forall_mem_append.mpr ⟨leftIh onLeft, rightIh onRight⟩

end

/-- Folding puts leaves into a tree, and no operators. -/
theorem Tree.MadeOf.run_fold {parts : Parts (StateM σ) C} (leaves : ∀ value, parts.leaf value)
    {t : Tree (StateM σ) C} (made : t.MadeOf parts) (s : σ) :
    (Id.run (t.fold.run s)).1.MadeOf parts := by
  induction t generalizing s with
  | leaf value => exact made
  | constant op =>
    rw [Tree.fold]
    split
    · exact leaves _
    · exact made
  | unary op operand ih =>
    rw [Tree.fold]
    split
    · exact leaves _
    · exact ⟨made.1, ih made.2 s⟩
  | group inner ih =>
    rw [Tree.fold]
    split
    · exact leaves _
    · exact ih made s
  | binary op priority left right leftIh rightIh =>
    rw [Tree.fold]
    split
    · exact leaves _
    · exact ⟨made.1, leftIh made.2.1 s, rightIh made.2.2 _⟩

/-! ## Numbers of operands -/

/-- How many operands the functions of a table expect. -/
def Arity.operands : Arity → Nat
  | .constant => 0
  | .unary => 1
  | .binary => 2

/-- The same operator, which notes with how many operands it is called as one of a table. -/
def Operator.tallied (table : Arity) (op : Operator (StateM σ) C) :
    Operator (StateM (σ × List (Arity × Nat))) C :=
  op.noting fun _ operands _ => (table, operands.length)

/-- The same operators, each of which notes the table it is in and with how many operands it is called. -/
def Vocabulary.tallied (v : Vocabulary (StateM σ) C) :
    Vocabulary (StateM (σ × List (Arity × Nat))) C where
  binary := v.binary.map (·.tallied .binary)
  unary := v.unary.map (·.tallied .unary)
  constants := v.constants.map (·.tallied .constant)

/-- Whether all functions have been called with the number of operands that their tables say. -/
def Exact (state : σ × List (Arity × Nat)) : Prop :=
  ∀ note ∈ state.2, note.2 = note.1.operands

def KeepsExact {α : Type} (act : StateM (σ × List (Arity × Nat)) α) : Prop :=
  ∀ state, Exact state → Exact (Id.run (act.run state)).2

namespace KeepsExact

variable {α β : Type} {act : StateM (σ × List (Arity × Nat)) α}

theorem pure (a : α) : KeepsExact (σ := σ) (Pure.pure a) :=
  fun _ exact => exact

theorem bind {next : α → StateM (σ × List (Arity × Nat)) β} (first : KeepsExact act)
    (later : ∀ a, KeepsExact (next a)) : KeepsExact (act >>= next) :=
  fun state exact => later _ _ (first state exact)

theorem map {f : α → β} (first : KeepsExact act) : KeepsExact (f <$> act) :=
  fun state exact => first state exact

theorem run_tallied (op : Operator (StateM σ) C) {table : Arity} {operands : List Value}
    (number : operands.length = table.operands) (context : Option C) :
    KeepsExact ((op.tallied table).run operands context) := by
  intro state exact
  have notes : (Id.run (((op.tallied table).run operands context).run state)).2.2 =
      state.2 ++ [(table, operands.length)] := rfl
  unfold Exact
  rw [notes]
  exact List.forall_mem_append.mpr ⟨exact, List.forall_mem_singleton.mpr number⟩

section

variable {v : Vocabulary (StateM σ) C} {t : Tree (StateM (σ × List (Arity × Nat))) C}

theorem eval (made : t.MadeOf v.tallied.parts) (context : Option C) : KeepsExact (t.eval context) := by
  induction t with
  | leaf value => exact pure value
  | constant op =>
    obtain ⟨op, _, rfl⟩ := List.mem_map.mp made
    exact run_tallied op rfl context
  | unary op operand ih =>
    obtain ⟨listed, operand⟩ := made
    obtain ⟨op, _, rfl⟩ := List.mem_map.mp listed
    exact (ih operand).bind fun a => run_tallied op rfl context
  | group inner ih => exact ih made
  | binary op priority left right leftIh rightIh =>
    obtain ⟨⟨place, found, _⟩, onLeft, onRight⟩ := made
    obtain ⟨op, _, rfl⟩ := List.mem_map.mp (List.mem_of_getElem? found)
    exact (leftIh onLeft).bind fun a => (rightIh onRight).bind fun b => run_tallied op rfl context

theorem fold (made : t.MadeOf v.tallied.parts) : KeepsExact t.fold := by
  have whole : ∀ {u : Tree (StateM (σ × List (Arity × Nat))) C}, u.MadeOf v.tallied.parts →
      KeepsExact (Tree.leaf (m := StateM (σ × List (Arity × Nat))) (C := C) <$> u.eval none) :=
    fun made => (eval made none).map
  induction t with
  | leaf value => exact pure _
  | constant op =>
    rw [Tree.fold]
    split
    · exact whole (u := .constant op) made
    · exact pure _
  | unary op operand ih =>
    rw [Tree.fold]
    split
    · exact whole made
    · exact (ih made.2).map
  | group inner ih =>
    rw [Tree.fold]
    split
    · exact whole made
    · exact (ih made).map
  | binary op priority left right leftIh rightIh =>
    rw [Tree.fold]
    split
    · exact whole made
    · obtain ⟨_, onLeft, onRight⟩ := made
      exact (leftIh onLeft).bind fun a => (rightIh onRight).bind fun b => pure _

end

end KeepsExact

/-! ## Texts -/

namespace Grammar

theorem exists_of_assemble [Monad m] {g : Grammar m C} {text : String} {offset : Nat} {root : Slot m C}
    (assembled : g.assemble text offset = .ok root) :
    ∃ t, g.parse text offset = .ok t ∧ root = t.toSlot := by
  rw [assemble_eq] at assembled
  cases parsed : g.parse text offset with
  | error e =>
    rw [parsed] at assembled
    cases assembled
  | ok t =>
    rw [parsed] at assembled
    cases assembled
    exact ⟨t, rfl, rfl⟩

theorem run_collapse_toSlot (t : Tree (StateM σ) C) (s : σ) :
    Id.run (t.toSlot.collapse.run s) =
      ((Id.run (t.fold.run s)).1.toSlot, (Id.run (t.fold.run s)).2) := by
  rw [Tree.collapse_toSlot]
  rfl

/-- The tree that is put together from a text, and what is left of it when it is collapsed, is well-formed,
whatever the tokens are; it is the tree that any compiler gives. So no function is ever called with another
number of operands than its table says. -/
theorem assemble_wellFormed (v : Vocabulary (StateM σ) C) (spacing : Spacing) (text : String)
    (offset : Nat) :
    (∀ root, (ofVocabulary v spacing).assemble text offset = .ok root →
      root.WellFormed v ∧ ∀ s, (Id.run (root.collapse.run s)).1.WellFormed v) ∧
    (∀ c, Compiler.Reached (.ofVocabulary v spacing) c → ∀ fresh s t, c.result text offset fresh s = .ok t →
      ∃ root s', (ofVocabulary v spacing).assemble text offset = .ok root ∧
        t.toSlot = (Id.run (root.collapse.run s')).1 ∧
        ∀ context, t.eval context = t.toSlot.eval context) ∧
    ∀ root, (ofVocabulary v.tallied spacing).assemble text offset = .ok root → ∀ context s s',
      Exact (Id.run ((root.eval context).run (s, []))).2 ∧
      Exact (Id.run (root.collapse.run (s', []))).2 ∧
      Exact (Id.run (((Id.run (root.collapse.run (s', []))).1.eval context).run (s, []))).2 := by
  have empty : ∀ s : σ, Exact (s, []) := fun _ => nofun
  refine ⟨?_, ?_, ?_⟩
  · intro root assembled
    obtain ⟨t, parsed, rfl⟩ := exists_of_assemble assembled
    have made := parse_madeOf_vocabulary parsed
    refine ⟨Tree.wellFormed_toSlot made, fun s => ?_⟩
    rw [run_collapse_toSlot]
    exact Tree.wellFormed_toSlot (made.run_fold (fun _ => trivial) s)
  · intro c reached fresh s t given
    obtain ⟨parsed, s', parses, rfl⟩ := reached.folds_of_result given
    refine ⟨parsed.toSlot, s', ?_, ?_, fun context => (Tree.eval_toSlot context _).symm⟩
    · rw [assemble_eq, parses]
      rfl
    · rw [run_collapse_toSlot]
  · intro root assembled context s s'
    obtain ⟨t, parsed, rfl⟩ := exists_of_assemble assembled
    have made := parse_madeOf_vocabulary parsed
    have folded := made.run_fold (fun _ => trivial) (s', [])
    rw [run_collapse_toSlot, Tree.eval_toSlot, Tree.eval_toSlot]
    exact ⟨KeepsExact.eval made context _ (empty s), KeepsExact.fold made _ (empty s'),
      KeepsExact.eval folded context _ (empty s)⟩

/-- The group is collapsed, the sum that counts is not. -/
theorem assemble_wellFormed_counts :
    (∃ root, (ofVocabulary .counter .wordsOnly).assemble "next + (1 + 2)" 0 = .ok root ∧
      root.nodes.length = 6 ∧ root.WellFormed .counter ∧
        (Id.run (root.collapse.run 7)).1.nodes.length = 3 ∧
          (Id.run (root.collapse.run 7)).1.WellFormed .counter) ∧
    (∃ t root s', (Compiler.ofVocabulary .counter .wordsOnly).result "next + (1 + 2)" 0 false 7 = .ok t ∧
      (ofVocabulary .counter .wordsOnly).assemble "next + (1 + 2)" 0 = .ok root ∧
        t.toSlot = (Id.run (root.collapse.run s')).1) ∧
    ∃ root, (ofVocabulary Vocabulary.counter.tallied .wordsOnly).assemble "next + (1 + 2)" 0 = .ok root ∧
      (Id.run ((root.eval none).run (7, []))).2.2 = [(.constant, 0), (.binary, 2), (.binary, 2)] ∧
        Exact (Id.run ((root.eval none).run (7, []))).2 := by
  obtain ⟨shapes, given, numbers⟩ := assemble_wellFormed .counter .wordsOnly "next + (1 + 2)" 0
  have raw : ∃ root, (ofVocabulary .counter .wordsOnly).assemble "next + (1 + 2)" 0 = .ok root ∧
      root.nodes.length = 6 ∧ (Id.run (root.collapse.run 7)).1.nodes.length = 3 := ⟨_, rfl, rfl, rfl⟩
  have compiled : ∃ t, (Compiler.ofVocabulary .counter .wordsOnly).result "next + (1 + 2)" 0 false 7 = .ok t :=
    ⟨_, rfl⟩
  have noting : ∃ root,
      (ofVocabulary Vocabulary.counter.tallied .wordsOnly).assemble "next + (1 + 2)" 0 = .ok root ∧
        (Id.run ((root.eval none).run (7, []))).2.2 = [(.constant, 0), (.binary, 2), (.binary, 2)] :=
    ⟨_, rfl, rfl⟩
  refine ⟨?_, ?_, ?_⟩
  · obtain ⟨root, assembled, length, collapsed⟩ := raw
    obtain ⟨whole, parts⟩ := shapes root assembled
    exact ⟨root, assembled, length, whole, collapsed, parts 7⟩
  · obtain ⟨t, compiled⟩ := compiled
    obtain ⟨root, s', assembled, same, _⟩ := given _ .start false 7 t compiled
    exact ⟨t, root, s', compiled, assembled, same⟩
  · obtain ⟨root, assembled, notes⟩ := noting
    exact ⟨root, assembled, notes, (numbers root assembled none 7 7).1⟩

end Grammar

end Formula
