import Formula.Assembly

/-!
# Assembling

What a phrase can do to an assembly, said once: each theorem about assembled trees goes by these six
cases.
-/

namespace Formula

variable {m : Type → Type} {C : Type}

def Building.closed : Building m C → Bool
  | .awaiting _ => false
  | .complete _ => true

namespace Assembly

/-- The tree when a phrase has brought its operand. -/
def treeWith (building : Building m C) (p : Phrase m C) : Tree m C :=
  match building with
  | .awaiting spine => operandTree spine p
  | .complete tree => tree

/-- How a phrase leaves an assembly when it is no error. -/
inductive Takes (inside : Bool) (a : Assembly m C) (p : Phrase m C) : Outcome m C → Prop where
  | opening (spine : Spine m C) (building : a.building = .awaiting spine) (stop : p.stop = .opening)
      (bare : p.operand = []) :
      Takes inside a p (.next ⟨⟨p.stopStart, p.unary, spine⟩ :: a.groups, .awaiting .hole⟩)
  | constant (spine : Spine m C) (building : a.building = .awaiting spine) (entry : Entry m C)
      (stop : p.stop = .constant entry) :
      Takes inside a p
        (.next ⟨a.groups, .complete (spine.fill (Tree.wrap p.unary (.constant entry.op)))⟩)
  | binary (entry : Entry m C) (stop : p.stop = .binary entry)
      (bare : a.building.closed → p.operand = []) :
      Takes inside a p
        (.next ⟨a.groups, .awaiting ((treeWith a.building p).append entry.op entry.priority)⟩)
  | closing (g : OpenGroup m C) (outer : List (OpenGroup m C)) (groups : a.groups = g :: outer)
      (stop : p.stop = .closing) (bare : a.building.closed → p.operand = []) :
      Takes inside a p (.next ⟨outer, .complete (g.close (treeWith a.building p))⟩)
  | unmatched (groups : a.groups = []) (within : inside = true) (stop : p.stop = .closing)
      (bare : a.building.closed → p.operand = []) : Takes inside a p (.done (treeWith a.building p))
  | ending (groups : a.groups = []) (stop : p.stop = .ending)
      (bare : a.building.closed → p.operand = []) : Takes inside a p (.done (treeWith a.building p))

section

variable {inside : Bool} {a : Assembly m C} {p : Phrase m C}

theorem step_binary {entry : Entry m C} (stop : p.stop = .binary entry)
    (bare : a.building.closed → p.operand = []) :
    a.step inside p =
      .ok (.next
        ⟨a.groups, .awaiting ((treeWith a.building p).append entry.op entry.priority)⟩) := by
  cases building : a.building with
  | awaiting spine => simp only [step, building, stop, treeWith]
  | complete tree =>
    simp only [building, Building.closed, forall_const] at bare
    simp only [step, building, stop, bare, if_true, treeWith]

theorem step_closing (stop : p.stop = .closing) (bare : a.building.closed → p.operand = []) :
    a.step inside p = close inside a.groups (treeWith a.building p) p.stopStart := by
  cases building : a.building with
  | awaiting spine => simp only [step, building, stop, treeWith]
  | complete tree =>
    simp only [building, Building.closed, forall_const] at bare
    simp only [step, building, stop, bare, if_true, treeWith]

theorem step_ending (stop : p.stop = .ending) (bare : a.building.closed → p.operand = []) :
    a.step inside p = .done <$> finish a.groups (treeWith a.building p) := by
  cases building : a.building with
  | awaiting spine => simp only [step, building, stop, treeWith]
  | complete tree =>
    simp only [building, Building.closed, forall_const] at bare
    simp only [step, building, stop, bare, if_true, treeWith]

end

theorem step_of_takes {inside : Bool} {a : Assembly m C} {p : Phrase m C} {outcome : Outcome m C}
    (takes : Takes inside a p outcome) : a.step inside p = .ok outcome := by
  cases takes with
  | opening spine building stop bare => simp only [step, building, stop, bare, if_true]
  | constant spine building entry stop => simp only [step, building, stop]
  | binary entry stop bare => exact step_binary stop bare
  | closing g outer groups stop bare => rw [step_closing stop bare, groups, close]
  | unmatched groups within stop bare => rw [step_closing stop bare, groups, close, if_pos within]
  | ending groups stop bare =>
    rw [step_ending stop bare, groups, finish]
    rfl

theorem takes_of_close {inside : Bool} {a : Assembly m C} {p : Phrase m C} {outcome : Outcome m C}
    (stop : p.stop = .closing) (bare : a.building.closed → p.operand = [])
    (closed : close inside a.groups (treeWith a.building p) p.stopStart = .ok outcome) :
    Takes inside a p outcome := by
  unfold close at closed
  split at closed
  · next g outer groups =>
    cases closed
    exact .closing g outer groups stop bare
  · next groups =>
    split at closed
    · next within =>
      cases closed
      exact .unmatched groups within stop bare
    · cases closed

theorem takes_of_finish {inside : Bool} {a : Assembly m C} {p : Phrase m C} {outcome : Outcome m C}
    (stop : p.stop = .ending) (bare : a.building.closed → p.operand = [])
    (finished : Outcome.done <$> finish a.groups (treeWith a.building p) = .ok outcome) :
    Takes inside a p outcome := by
  unfold finish at finished
  split at finished
  · cases finished
  · next groups =>
    cases finished
    exact .ending groups stop bare

/-- Behind a complete tree an operand is an error. -/
theorem bare_of_step {inside : Bool} {a : Assembly m C} {p : Phrase m C} {outcome : Outcome m C}
    (taken : a.step inside p = .ok outcome) (closed : a.building.closed) : p.operand = [] := by
  cases building : a.building with
  | awaiting spine =>
    rw [building] at closed
    cases closed
  | complete tree =>
    by_cases empty : p.operand = []
    · exact empty
    · simp only [step, building, if_neg empty] at taken
      cases taken

theorem takes_of_step {inside : Bool} {a : Assembly m C} {p : Phrase m C} {outcome : Outcome m C}
    (taken : a.step inside p = .ok outcome) : Takes inside a p outcome := by
  have bare := bare_of_step taken
  cases stop : p.stop with
  | opening =>
    cases building : a.building with
    | awaiting spine =>
      simp only [step, building, stop] at taken
      split at taken
      · next empty =>
        cases taken
        exact .opening spine building stop empty
      · cases taken
    | complete tree =>
      simp only [step, building, stop] at taken
      split at taken <;> cases taken
  | constant entry =>
    cases building : a.building with
    | awaiting spine =>
      simp only [step, building, stop] at taken
      cases taken
      exact .constant spine building entry stop
    | complete tree =>
      simp only [step, building, stop] at taken
      split at taken <;> cases taken
  | binary entry =>
    rw [step_binary stop bare] at taken
    cases taken
    exact .binary entry stop bare
  | closing =>
    rw [step_closing stop bare] at taken
    exact takes_of_close stop bare taken
  | ending =>
    rw [step_ending stop bare] at taken
    exact takes_of_finish stop bare taken

end Assembly

end Formula
