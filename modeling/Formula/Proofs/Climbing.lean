import Formula.Proofs.Grouping

/-!
# Climbing

The textbook way to read operators by precedence: an operand, then as long as the next operator is
admitted its right operand, which takes all that bind at least as tightly. From the items of a grouped
tree it reads the tree.
-/

namespace Formula

variable {m : Type → Type} {C : Type}

/-- Whether a climb with this limit, if any, goes on at an operator. -/
def admits (limit : Option Nat) (priority : Nat) : Bool :=
  limit.all (priority ≤ ·)

mutual

/-- Reads an atom: unary operators before a value, a constant or a group. -/
def climbAtom : (items : List (Item m C)) →
    Option (Tree m C × { rest : List (Item m C) // rest.length < items.length })
  | .value v :: items => some (.leaf v, ⟨items, Nat.lt_succ_self _⟩)
  | .constant op :: items => some (.constant op, ⟨items, Nat.lt_succ_self _⟩)
  | .unary op :: items => do
    let (operand, ⟨rest, shorter⟩) ← climbAtom items
    some (.unary op operand, ⟨rest, Nat.lt_succ_of_lt shorter⟩)
  | .opening :: items => do
    match ← climb none items with
    | (inner, ⟨.closing :: rest, shorter⟩) =>
      some (.group inner, ⟨rest, by simp only [List.length_cons] at shorter ⊢; omega⟩)
    | _ => none
  | _ => none
termination_by items => (items.length, 0)

/-- Reads operands and binary operators as long as the limit admits these. -/
def climb (limit : Option Nat) (items : List (Item m C)) :
    Option (Tree m C × { rest : List (Item m C) // rest.length < items.length }) := do
  let (left, ⟨rest, shorter⟩) ← climbAtom items
  let (tree, ⟨rest, noLonger⟩) ← climbOn limit left rest
  some (tree, ⟨rest, Nat.lt_of_le_of_lt noLonger shorter⟩)
termination_by (items.length, 1)

/-- Goes on behind `left`. The right operand takes all operators that bind at least as tightly. -/
def climbOn (limit : Option Nat) (left : Tree m C) : (items : List (Item m C)) →
    Option (Tree m C × { rest : List (Item m C) // rest.length ≤ items.length })
  | .binary op priority :: items =>
    if admits limit priority then do
      let (right, ⟨rest, shorter⟩) ← climb (some priority) items
      let (tree, ⟨rest, noLonger⟩) ← climbOn limit (.binary op priority left right) rest
      some (tree, ⟨rest, by simp only [List.length_cons]; omega⟩)
    else some (left, ⟨.binary op priority :: items, Nat.le_refl _⟩)
  | items => some (left, ⟨items, Nat.le_refl _⟩)
termination_by items => (items.length, 2)
decreasing_by all_goals simp_wf <;> omega

end

/-- Whether a climb with this limit reads the whole tree. -/
def Tree.AdmittedBy (t : Tree m C) (limit : Option Nat) : Prop :=
  ∀ bound ∈ limit, t.Within bound

/-- Whether no operator follows that would take the tree, or a part of it, for its left operand. -/
def Tree.EndsBefore (t : Tree m C) (rest : List (Item m C)) : Prop :=
  ∀ op priority later, rest = .binary op priority :: later → t.Below priority

theorem climb_of_atom {limit : Option Nat} {items rest : List (Item m C)} {left tree : Tree m C}
    {shorter : rest.length < items.length}
    {final : { final : List (Item m C) // final.length ≤ rest.length }}
    (atom : climbAtom items = some (left, ⟨rest, shorter⟩))
    (onward : climbOn limit left rest = some (tree, final)) :
    ∃ shorter, climb limit items = some (tree, ⟨final.val, shorter⟩) := by
  refine ⟨Nat.lt_of_le_of_lt final.property shorter, ?_⟩
  rw [climb, atom]
  simp only [Option.bind_eq_bind, Option.bind_some, onward]

theorem climbOn_stop {limit : Option Nat} {left : Tree m C} {rest : List (Item m C)}
    (stop : ∀ op priority later, rest = .binary op priority :: later → admits limit priority = false) :
    climbOn limit left rest = some (left, ⟨rest, Nat.le_refl _⟩) := by
  unfold climbOn
  split
  · next op priority items => simp only [stop op priority items rfl, Bool.false_eq_true, if_false]
  · rfl

theorem climbOn_binary {limit : Option Nat} {priority : Nat} {right tree : Tree m C}
    {items rest : List (Item m C)} {shorter : rest.length < items.length}
    {final : { final : List (Item m C) // final.length ≤ rest.length }}
    (op : Operator m C) (left : Tree m C) (admitted : admits limit priority)
    (onRight : climb (some priority) items = some (right, ⟨rest, shorter⟩))
    (onward : climbOn limit (.binary op priority left right) rest = some (tree, final)) :
    ∃ noLonger,
      climbOn limit left (.binary op priority :: items) = some (tree, ⟨final.val, noLonger⟩) := by
  have noLonger : final.val.length ≤ items.length + 1 := by have := final.property; omega
  refine ⟨noLonger, ?_⟩
  rw [climbOn, if_pos admitted, onRight]
  simp only [Option.bind_eq_bind, Option.bind_some, onward]

/-- A climb reads the tree off its items and goes on behind it. -/
def Tree.Climbs (t : Tree m C) : Prop :=
  ∀ limit rest tree final, t.AdmittedBy limit → t.EndsBefore rest →
    climbOn limit t rest = some (tree, final) →
    ∃ shorter, climb limit (t.items ++ rest) = some (tree, ⟨final.val, shorter⟩)

/-- The tree is read off its items as an atom. -/
def Tree.ClimbsAsAtom (t : Tree m C) : Prop :=
  ∀ rest, ∃ shorter, climbAtom (t.items ++ rest) = some (t, ⟨rest, shorter⟩)

theorem Tree.ClimbsAsAtom.climbs {t : Tree m C} (atom : t.ClimbsAsAtom) : t.Climbs := by
  intro limit rest tree final _ _ onward
  obtain ⟨shorter, read⟩ := atom rest
  exact climb_of_atom read onward

theorem Tree.Climbs.whole {t : Tree m C} (climbs : t.Climbs) (rest : List (Item m C))
    (stop : ∀ op priority later, rest ≠ .binary op priority :: later) :
    ∃ shorter, climb none (t.items ++ rest) = some (t, ⟨rest, shorter⟩) :=
  climbs none rest t ⟨rest, Nat.le_refl _⟩ (fun _ none => by cases none)
    (fun op priority later equal => absurd equal (stop op priority later))
    (climbOn_stop fun op priority later equal => absurd equal (stop op priority later))

theorem Tree.ClimbsAsAtom.unary {operand : Tree m C} (atom : operand.ClimbsAsAtom)
    (op : Operator m C) : (Tree.unary op operand).ClimbsAsAtom := by
  intro rest
  obtain ⟨shorter, read⟩ := atom rest
  have first : (Tree.unary op operand).items ++ rest = .unary op :: (operand.items ++ rest) := rfl
  rw [first, climbAtom, read]
  exact ⟨Nat.lt_succ_of_lt shorter, rfl⟩

theorem Tree.Climbs.group {inner : Tree m C} (climbs : inner.Climbs) :
    (Tree.group inner).ClimbsAsAtom := by
  intro rest
  obtain ⟨shorter, read⟩ := climbs.whole (.closing :: rest) fun _ _ _ equal => by cases equal
  have first : (Tree.group inner).items ++ rest = .opening :: (inner.items ++ .closing :: rest) := by
    simp only [Tree.items, List.cons_append, List.append_assoc, List.nil_append]
  rw [first, climbAtom, read]
  exact ⟨by simp only [List.length_cons, List.length_append]; omega, rfl⟩

/-- The right operand ends where the whole tree does, because what follows binds more loosely than
the root. The left operand ends at the root. -/
theorem Tree.Climbs.binary {left right : Tree m C} {priority : Nat} (leftClimbs : left.Climbs)
    (rightClimbs : right.Climbs) (below : left.Below priority) (within : right.Within priority)
    (op : Operator m C) : (Tree.binary op priority left right).Climbs := by
  intro limit rest tree final admitted endsBefore onward
  have rightBefore : right.EndsBefore rest := by
    intro other looser later equal
    have root : priority < looser := endsBefore other looser later equal
    cases right with
    | binary => exact Nat.lt_of_le_of_lt within root
    | _ => trivial
  have rightStops : climbOn (some priority) right rest = some (right, ⟨rest, Nat.le_refl _⟩) := by
    refine climbOn_stop fun other looser later equal => ?_
    have root : priority < looser := endsBefore other looser later equal
    simp only [admits, Option.all_some, decide_eq_false_iff_not]
    omega
  obtain ⟨rightShorter, readRight⟩ := rightClimbs (some priority) rest right _
    (fun bound same => by cases same; exact within) rightBefore rightStops
  have passes : admits limit priority := by
    cases limit with
    | none => rfl
    | some bound => exact decide_eq_true (admitted bound rfl)
  obtain ⟨noLonger, fromLeft⟩ := climbOn_binary op left passes readRight onward
  have leftAdmitted : left.AdmittedBy limit := by
    intro bound same
    have root : priority ≤ bound := admitted bound same
    cases left with
    | binary => exact Nat.le_trans (Nat.le_of_lt below) root
    | _ => trivial
  have leftBefore : left.EndsBefore (.binary op priority :: (right.items ++ rest)) := by
    intro _ _ _ equal
    cases equal
    exact below
  have whole : (Tree.binary op priority left right).items ++ rest =
      left.items ++ .binary op priority :: (right.items ++ rest) := by
    simp only [Tree.items, List.append_assoc, List.cons_append]
  rw [whole]
  exact leftClimbs limit _ tree _ leftAdmitted leftBefore fromLeft

/-- Climbing over the items of a grouped tree gives the tree back. -/
theorem Tree.Grouped.climbs {t : Tree m C} (grouped : t.Grouped) :
    t.Climbs ∧ (t.IsAtom → t.ClimbsAsAtom) := by
  induction t with
  | leaf v =>
    have atom : (Tree.leaf v : Tree m C).ClimbsAsAtom := fun rest =>
      ⟨Nat.lt_succ_self _, by simp only [Tree.items, List.cons_append, List.nil_append, climbAtom]⟩
    exact ⟨atom.climbs, fun _ => atom⟩
  | constant op =>
    have atom : (Tree.constant op).ClimbsAsAtom := fun rest =>
      ⟨Nat.lt_succ_self _, by simp only [Tree.items, List.cons_append, List.nil_append, climbAtom]⟩
    exact ⟨atom.climbs, fun _ => atom⟩
  | unary op operand ih =>
    have atom := ((ih grouped.2).2 grouped.1).unary op
    exact ⟨atom.climbs, fun _ => atom⟩
  | group inner ih =>
    have atom := (ih grouped).1.group
    exact ⟨atom.climbs, fun _ => atom⟩
  | binary op priority left right leftIh rightIh =>
    obtain ⟨below, within, leftGrouped, rightGrouped⟩ := grouped
    exact ⟨(leftIh leftGrouped).1.binary (rightIh rightGrouped).1 below within op, False.elim⟩

end Formula
