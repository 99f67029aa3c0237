import Formula.Proofs.Reading
import Formula.Proofs.Slots

/-!
# Drafts

A text put together in places, which say nothing about what may go into them. Whether an operand has
just been completed is kept in a flag; with this flag in step, the places hold a well-formed tree, or one
that waits for its last operand, at any time.
-/

namespace Formula

variable {m : Type → Type} [Monad m] {C : Type}

def Stop.opens : Stop m C → Bool
  | .opening => true
  | .ending | .closing | .constant _ | .binary _ => false

namespace Draft

/-- A bracket that is open, with what is before it. -/
structure Frame (m : Type → Type) (C : Type) where
  position : Nat
  unary : List (Operator m C)
  root : Slot m C

end Draft

/-- A text put together up to some phrase. The innermost open bracket is the first. -/
structure Draft (m : Type → Type) (C : Type) where
  frames : List (Draft.Frame m C)
  root : Slot m C
  /-- Whether the phrase before was a group or a constant. -/
  closed : Bool

namespace Draft

inductive Outcome (m : Type → Type) (C : Type) where
  | next (d : Draft m C)
  | done (root : Slot m C)

def empty : Draft m C :=
  ⟨[], .empty, false⟩

/-- The root when a phrase has brought its operand. Behind a group or a constant there is none. -/
def rootWith (d : Draft m C) (p : Phrase m C) : Slot m C :=
  if d.closed then d.root
  else d.root.attach (.wrap p.unary (.leaf (Value.ofOperand p.operand)))

/-- The root when a bracket has been closed. -/
def Frame.close (frame : Frame m C) (inner : Slot m C) : Slot m C :=
  frame.root.attach (.wrap frame.unary (.group inner.finish))

def close (inside : Bool) (frames : List (Frame m C)) (root : Slot m C) (position : Nat) :
    Except CompileError (Outcome m C) :=
  match frames with
  | frame :: outer => .ok (.next ⟨outer, frame.close root, true⟩)
  | [] => if inside then .ok (.done root.finish) else .error (.unexpectedCloseBracket position)

def conclude (frames : List (Frame m C)) (root : Slot m C) : Except CompileError (Outcome m C) :=
  match frames with
  | frame :: _ => .error (.unclosedBracket frame.position)
  | [] => .ok (.done root.finish)

/-- Puts what a phrase brings into the places, whatever they hold. -/
def place (inside : Bool) (d : Draft m C) (p : Phrase m C) : Except CompileError (Outcome m C) :=
  match p.stop with
  | .opening => .ok (.next ⟨⟨p.stopStart, p.unary, d.root⟩ :: d.frames, .empty, false⟩)
  | .constant entry =>
    .ok (.next ⟨d.frames, d.root.attach (.wrap p.unary (.ofOperator entry.op 0 .empty)), true⟩)
  | .binary entry =>
    .ok (.next ⟨d.frames, (d.rootWith p).splice entry.op entry.priority, false⟩)
  | .closing => close inside d.frames (d.rootWith p) p.stopStart
  | .ending => conclude d.frames (d.rootWith p)

/-- Adds a phrase. Behind a group or a constant it may bring neither an operand nor a bracket, and before
a bracket no operand. -/
def step (inside : Bool) (d : Draft m C) (p : Phrase m C) : Except CompileError (Outcome m C) :=
  if p.operand ≠ [] ∧ (d.closed ∨ p.stop.opens) then
    .error (.danglingOperand (String.ofList p.operand) p.operandStart)
  else if d.closed ∧ p.stop.opens then .error (.danglingOperand "(" p.stopStart)
  else d.place inside p

/-- The root when no text is left. -/
def Outcome.root : Outcome m C → Slot m C
  | .next d => d.root.finish
  | .done root => root

/-- Scans a text with the flag of the draft, and adds its phrases until the root is complete. -/
def run (g : Grammar m C) (inside : Bool) : Draft m C → Scan m C → List Char → Except CompileError (Slot m C)
  | d, s, [] => Outcome.root <$> d.step inside s.finish
  | d, s, c :: rest =>
    match s.step g c rest with
    | .more s => run g inside d s rest
    | .found p =>
      match d.step inside p with
      | .ok (.next d) => run g inside d (.startingAt d.closed p.next) rest
      | .ok (.done root) => .ok root
      | .error e => .error e

end Draft

/-- The tree of a text from a byte offset on, put together in places. -/
def Grammar.assemble (g : Grammar m C) (text : String) (offset : Nat) : Except CompileError (Slot m C) :=
  Draft.empty.run g (decide (0 < offset)) (.startingAt false offset)
    ((dropBytes? offset text.toList).getD [])

/-! ## Assemblies as drafts -/

def Building.toSlot : Building m C → Slot m C
  | .awaiting spine => spine.toSlot
  | .complete tree => tree.toSlot

def OpenGroup.toFrame (group : OpenGroup m C) : Draft.Frame m C :=
  ⟨group.position, group.unary, group.spine.toSlot⟩

namespace Assembly

def toDraft (a : Assembly m C) : Draft m C :=
  ⟨a.groups.map OpenGroup.toFrame, a.building.toSlot, a.building.closed⟩

def Outcome.toDraft : Outcome m C → Draft.Outcome m C
  | .next a => .next a.toDraft
  | .done tree => .done tree.toSlot

variable {inside : Bool} {a : Assembly m C} {p : Phrase m C}

theorem rootWith_toDraft (a : Assembly m C) (p : Phrase m C) :
    a.toDraft.rootWith p = (treeWith a.building p).toSlot := by
  unfold toDraft
  cases a.building with
  | awaiting spine =>
    rw [treeWith, operandTree, Spine.toSlot_fill, Tree.toSlot_wrap]
    rfl
  | complete tree => rfl

theorem close_toFrame (group : OpenGroup m C) (inner : Tree m C) :
    group.toFrame.close inner.toSlot = (group.close inner).toSlot := by
  rw [Draft.Frame.close, Tree.finish_toSlot, OpenGroup.close, Spine.toSlot_fill, Tree.toSlot_wrap]
  rfl

theorem close_toDraft (groups : List (OpenGroup m C)) (t : Tree m C) (position : Nat) :
    Draft.close inside (groups.map OpenGroup.toFrame) t.toSlot position =
      Outcome.toDraft <$> close inside groups t position := by
  cases groups with
  | nil =>
    rw [List.map_nil, Draft.close, Tree.finish_toSlot]
    cases inside <;> rfl
  | cons group outer =>
    rw [List.map_cons, Draft.close, close_toFrame]
    rfl

theorem conclude_toDraft (groups : List (OpenGroup m C)) (t : Tree m C) :
    Draft.conclude (groups.map OpenGroup.toFrame) t.toSlot =
      Outcome.toDraft <$> Outcome.done <$> finish groups t := by
  cases groups with
  | nil =>
    rw [List.map_nil, Draft.conclude, Tree.finish_toSlot]
    rfl
  | cons => rfl

theorem place_opening {spine : Spine m C} (building : a.building = .awaiting spine) (bare : p.operand = [])
    (stop : p.stop = .opening) : a.toDraft.place inside p = Outcome.toDraft <$> a.step inside p := by
  have root : a.toDraft.root = spine.toSlot := by
    rw [toDraft, building]
    rfl
  simp only [Draft.place, stop, root, step, building, bare, if_true]
  rfl

theorem place_constant {spine : Spine m C} (building : a.building = .awaiting spine) {entry : Entry m C}
    (stop : p.stop = .constant entry) :
    a.toDraft.place inside p = Outcome.toDraft <$> a.step inside p := by
  have root : a.toDraft.root = spine.toSlot := by
    rw [toDraft, building]
    rfl
  have filled : (spine.fill (Tree.wrap p.unary (.constant entry.op))).toSlot =
      spine.toSlot.attach (.wrap p.unary (.ofOperator entry.op 0 .empty)) := by
    rw [Spine.toSlot_fill, Tree.toSlot_wrap]
    rfl
  simp only [Draft.place, stop, root, step, building, ← filled]
  rfl

/-- What a phrase does once it has brought its operand does not depend on who has brought it. -/
theorem place_behind (bare : a.building.closed → p.operand = []) (opening : p.stop.opens = false)
    (constant : ∀ entry, p.stop ≠ .constant entry) :
    a.toDraft.place inside p = Outcome.toDraft <$> a.step inside p := by
  rw [Draft.place, rootWith_toDraft]
  cases stop : p.stop with
  | opening =>
    rw [stop] at opening
    cases opening
  | constant entry => exact absurd stop (constant entry)
  | binary entry =>
    simp only [step_binary stop bare, ← Tree.toSlot_append]
    rfl
  | closing =>
    rw [step_closing stop bare]
    exact close_toDraft _ _ _
  | ending =>
    rw [step_ending stop bare]
    exact conclude_toDraft _ _

/-- A phrase does to the places what it does to the tree, unless it brings a constant behind an operand. -/
theorem step_toDraft (front : ∀ entry, p.stop = .constant entry → a.building.closed = false) :
    a.toDraft.step inside p = Outcome.toDraft <$> a.step inside p := by
  have flag : a.toDraft.closed = a.building.closed := rfl
  rw [Draft.step, flag]
  cases building : a.building with
  | awaiting spine =>
    have awaits : (Building.awaiting spine).closed = false := rfl
    have bare : a.building.closed → p.operand = [] := by
      rw [building]
      rintro ⟨⟩
    simp only [awaits, Bool.false_eq_true, false_or, false_and, if_false]
    cases stop : p.stop with
    | opening =>
      by_cases empty : p.operand = []
      · rw [if_neg fun dangling => dangling.1 empty]
        exact place_opening building empty stop
      · rw [if_pos ⟨empty, rfl⟩]
        simp only [step, building, stop, empty, if_false]
        rfl
    | constant entry =>
      simp only [Stop.opens, Bool.false_eq_true, and_false, if_false]
      exact place_constant building stop
    | _ =>
      simp only [Stop.opens, Bool.false_eq_true, and_false, if_false]
      exact place_behind bare (by rw [stop]; rfl) (by rw [stop]; rintro entry ⟨⟩)
  | complete tree =>
    have closed : (Building.complete tree).closed = true := rfl
    simp only [closed, true_or, and_true, true_and]
    by_cases empty : p.operand = []
    · rw [if_neg (not_not_intro empty)]
      cases stop : p.stop with
      | opening =>
        simp only [step, building, stop, empty, if_true]
        rfl
      | constant entry =>
        have front := front entry stop
        rw [building] at front
        cases front
      | _ => exact place_behind (fun _ => empty) (by rw [stop]; rfl) (by rw [stop]; rintro entry ⟨⟩)
    · rw [if_pos empty]
      simp only [step, building, empty, if_false]
      rfl

end Assembly

/-! ## Texts -/

namespace Draft

variable {g : Grammar m C} {inside : Bool} {p : Phrase m C}

theorem run_nil {a : Assembly m C} (s : Scan m C) :
    a.toDraft.run g inside s [] = Tree.toSlot <$> g.read inside a s [] := by
  have ending : ∀ entry, s.finish.stop = .constant entry → a.building.closed = false := by
    rintro entry ⟨⟩
  rw [run, Assembly.step_toDraft ending, Grammar.read, Scan.phrases, Assembly.run]
  cases stepped : a.step inside s.finish with
  | error e => rfl
  | ok outcome =>
    cases outcome with
    | next b => exact absurd rfl (Assembly.takes_of_step stepped).ne_ending
    | done t => rfl

/-- The flag of the draft is that of the tree at any time, so what is put together in the places is the
tree. The induction is on the text. -/
theorem run_toDraft {a : Assembly m C} {s : Scan m C} {text : List Char}
    (same : a.building.closed = s.closed) :
    a.toDraft.run g inside s text = Tree.toSlot <$> g.read inside a s text := by
  induction text generalizing a s with
  | nil => exact run_nil s
  | cons c rest ih =>
    cases acted : s.step g c rest with
    | more next =>
      rw [run, Grammar.read, Scan.phrases, acted]
      exact ih (same.trans (Scan.step_more acted).1.symm)
    | found p =>
      have front : ∀ entry, p.stop = .constant entry → a.building.closed = false :=
        fun entry constant => same.trans (Scan.closed_of_constant acted constant)
      rw [run, Grammar.read, Scan.phrases, acted]
      simp only [Assembly.run, Assembly.step_toDraft front]
      cases stepped : a.step inside p with
      | error e => rfl
      | ok outcome =>
        cases outcome with
        | next b =>
          rw [Scan.after_eq, ← (Assembly.takes_of_step stepped).closed_next]
          exact ih rfl
        | done t => rfl

end Draft

/-- What is put together in places is the tree of the text. -/
theorem Grammar.assemble_eq (g : Grammar m C) (text : String) (offset : Nat) :
    g.assemble text offset = Tree.toSlot <$> g.parse text offset := by
  have start : (Draft.empty : Draft m C) = Assembly.empty.toDraft := rfl
  rw [assemble, start]
  exact Draft.run_toDraft rfl

end Formula
