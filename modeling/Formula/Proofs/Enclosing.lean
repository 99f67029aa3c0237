import Formula.Proofs.Reading

/-!
# Enclosing

A text that is read to its end is read in the same way in front of a closing bracket, inside of any
groups: positions aside, all that is done to the groups it opens itself is done above those. Only an
open quote goes on behind the text.
-/

namespace Formula

variable {m : Type → Type} {C : Type}

def Scan.shift (bytes : Nat) (s : Scan m C) : Scan m C :=
  { s with start := s.start + bytes }

def Phrase.shift (bytes : Nat) (p : Phrase m C) : Phrase m C :=
  { p with
    operandStart := p.operandStart + bytes
    stopStart := p.stopStart + bytes
    next := p.next + bytes }

def OpenGroup.shift (bytes : Nat) (g : OpenGroup m C) : OpenGroup m C :=
  { g with position := g.position + bytes }

def Scan.Outcome.shift (bytes : Nat) : Scan.Outcome m C → Scan.Outcome m C
  | .more s => .more (s.shift bytes)
  | .found p => .found (p.shift bytes)

namespace Scan

theorem phrase_shift (bytes : Nat) (s : Scan m C) (left : List Char) (stop : Stop m C) (length : Nat) :
    (s.shift bytes).phrase left stop length = (s.phrase left stop length).shift bytes := by
  simp only [phrase, shift, Phrase.shift, Nat.add_right_comm]

theorem act_shift (bytes : Nat) (s : Scan m C) (c : Char) (mark : Mark m C) :
    (s.shift bytes).act c mark = (s.act c mark).shift bytes := by
  cases mark with
  | constant entry =>
    rw [act, act, phrase_shift, shift, Nat.add_right_comm]
    rfl
  | unary entry =>
    rw [act, act, shift, Nat.add_right_comm]
    rfl
  | bracket stop => exact congrArg Outcome.found (phrase_shift ..)
  | binary entry => exact congrArg Outcome.found (phrase_shift ..)
  | nothing => rfl

theorem after_shift (bytes : Nat) (p : Phrase m C) : after (p.shift bytes) = (after p).shift bytes := by
  obtain ⟨_, _, _, stop, _, _⟩ := p
  cases stop <;> rfl

end Scan

namespace Assembly

/-- An assembly inside of other groups. -/
def within (bytes : Nat) (outer : List (OpenGroup m C)) (a : Assembly m C) : Assembly m C :=
  ⟨a.groups.map (.shift bytes) ++ outer, a.building⟩

theorem treeWith_shift (bytes : Nat) (building : Building m C) (p : Phrase m C) :
    treeWith building (p.shift bytes) = treeWith building p := by
  cases building <;> rfl

theorem Takes.within {a b : Assembly m C} {p : Phrase m C} (takes : Takes false a p (.next b))
    (bytes : Nat) (inside : Bool) (outer : List (OpenGroup m C)) :
    Takes inside (a.within bytes outer) (p.shift bytes) (.next (b.within bytes outer)) := by
  cases takes with
  | opening spine building stop bare => exact .opening spine building stop bare
  | constant spine building entry stop =>
    have same : (a.within bytes outer).building = .awaiting spine := building
    have ends : (p.shift bytes).stop = .constant entry := stop
    exact .constant spine same entry ends
  | binary entry stop bare =>
    rw [← treeWith_shift bytes]
    exact .binary entry stop bare
  | closing group others groups stop bare =>
    rw [← treeWith_shift bytes]
    refine .closing (group.shift bytes) _ ?_ stop bare
    rw [Assembly.within, groups]
    rfl

theorem Takes.done {a : Assembly m C} {p : Phrase m C} {t : Tree m C}
    (takes : Takes false a p (.done t)) :
    p.stop = .ending ∧ a.groups = [] ∧ t = treeWith a.building p ∧
      (a.building.closed → p.operand = []) := by
  cases takes with
  | unmatched groups within => cases within
  | ending groups stop bare => exact ⟨stop, groups, rfl, bare⟩

end Assembly

/-- A text that is read to its end comes, before a closing bracket, to the same operand. -/
theorem Grammar.read_before_closing {g : Grammar m C} (avoids : g.Avoids ')') {text : List Char}
    {s : Scan m C} {a : Assembly m C} {t : Tree m C} (parsed : g.read false a s text = .ok t) :
    ∃ (last : Scan m C) (building : Building m C),
      (building.closed → trim last.buffer.reverse = []) ∧
        t = Assembly.treeWith building last.finish ∧
        ∀ bytes inside outer behind,
          g.read inside (a.within bytes outer) (s.shift bytes) (text ++ ')' :: behind) =
            g.read inside ⟨outer, building⟩ (last.shift bytes) (')' :: behind) := by
  induction text generalizing s a with
  | nil =>
    obtain ⟨_, groups, tree, bare⟩ := (Scan.of_read_nil parsed).done
    refine ⟨s, a.building, bare, tree, fun bytes inside outer behind => ?_⟩
    rw [Assembly.within, groups]
    rfl
  | cons c rest ih =>
    have shifted : ∀ bytes behind, (s.shift bytes).act c
        (Scan.mark g s.closed s.buffer c (rest ++ ')' :: behind)) =
        (s.act c (Scan.mark g s.closed s.buffer c rest)).shift bytes := by
      intro bytes behind
      rw [Scan.mark_before avoids rfl rfl, Scan.act_shift]
    rcases Scan.of_read_cons parsed with ⟨next, more, parsed⟩ | ⟨p, found, done | ⟨b, taken, parsed⟩⟩
    · obtain ⟨last, building, bare, tree, reads⟩ := ih parsed
      refine ⟨last, building, bare, tree, fun bytes inside outer behind => ?_⟩
      rw [List.cons_append, Scan.read_more ((shifted bytes behind).trans (congrArg _ more)), reads]
    · rw [← Scan.step_eq_act] at found
      exact absurd done.done.1 (Scan.step_found found).2
    · obtain ⟨last, building, bare, tree, reads⟩ := ih parsed
      refine ⟨last, building, bare, tree, fun bytes inside outer behind => ?_⟩
      rw [List.cons_append, Scan.read_found ((shifted bytes behind).trans (congrArg _ found))
        (taken.within bytes inside outer), Scan.after_shift, reads]

/-- A text that has a tree, alone and between brackets, is a group of that tree before anything. -/
theorem Grammar.reads_enclosed {g : Grammar m C} (opening : g.Avoids '(') (closing : g.Avoids ')')
    {text : List Char} {t u : Tree m C}
    (alone : g.read false .empty (.startingAt false 0) text = .ok t)
    (enclosed : g.read false .empty (.startingAt false 0) ('(' :: (text ++ [')'])) = .ok u)
    (behind : List Char) : g.ReadsAs ('(' :: (text ++ [')'])) (.group t) behind := by
  obtain ⟨last, building, bare, tree, reads⟩ := read_before_closing closing alone
  have content : ∀ start inside outer behind,
      g.read inside ⟨outer, .awaiting .hole⟩ (.startingAt false start) (text ++ ')' :: behind) =
        g.read inside ⟨outer, building⟩ (last.shift start) (')' :: behind) := by
    intro start inside outer behind
    have first : (Scan.startingAt false start : Scan m C) = (Scan.startingAt false 0).shift start := by
      simp only [Scan.shift, Scan.startingAt, Nat.zero_add]
    rw [first]
    exact reads start inside outer behind
  -- An open quote would take in the bracket and leave the group open.
  have ready : last.Ready building := by
    refine ⟨?_, bare⟩
    by_contra quote
    rw [Bool.not_eq_false] at quote
    obtain ⟨position, start, opened⟩ := Scan.read_opening opening (Scan.fresh_startingAt 0) [] .hole
    have marked : Scan.mark g (last.shift start).closed (last.shift start).buffer ')' [] = .nothing := by
      rw [Scan.mark_closing closing]
      exact if_pos quote
    have parsed := opened.symm.trans enclosed
    rw [content, Scan.read_nothing marked] at parsed
    have unclosed := (Scan.of_read_nil parsed).done.2.1
    cases unclosed
  refine ReadsWithin.group opening closing fun inside groups start => ?_
  rw [content, tree]
  have shifted : (last.shift start).Ready building := ⟨ready.unquoted, ready.bare⟩
  exact ⟨_, Scan.read_ready_closing closing shifted groups⟩

end Formula
