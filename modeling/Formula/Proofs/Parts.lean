import Formula.Proofs.Reading
import Formula.Tree.Eval

/-!
# Parts of trees

What the tree of a text is made of: its operators are entries of the grammar, each in its own table, and
its leaves are operands in which a scan has recognized nothing.
-/

namespace Formula

variable {m : Type → Type} {C : Type}

structure Parts (m : Type → Type) (C : Type) where
  leaf : Value → Prop
  constant : Operator m C → Prop
  unary : Operator m C → Prop
  binary : Operator m C → Nat → Prop

/-! ## Trees -/

section

variable {parts : Parts m C}

def Tree.MadeOf (parts : Parts m C) : Tree m C → Prop
  | .leaf v => parts.leaf v
  | .constant op => parts.constant op
  | .unary op operand => parts.unary op ∧ operand.MadeOf parts
  | .group inner => inner.MadeOf parts
  | .binary op priority left right =>
    parts.binary op priority ∧ left.MadeOf parts ∧ right.MadeOf parts

def Spine.MadeOf (parts : Parts m C) : Spine m C → Prop
  | .hole => True
  | .binary op priority left right =>
    parts.binary op priority ∧ left.MadeOf parts ∧ right.MadeOf parts

theorem Spine.MadeOf.fill {s : Spine m C} {t : Tree m C} (spine : s.MadeOf parts)
    (tree : t.MadeOf parts) : (s.fill t).MadeOf parts := by
  induction s with
  | hole => exact tree
  | binary op priority left right ih => exact ⟨spine.1, spine.2.1, ih spine.2.2⟩

theorem Tree.MadeOf.append {t : Tree m C} (tree : t.MadeOf parts) {op : Operator m C} {priority : Nat}
    (binary : parts.binary op priority) : (t.append op priority).MadeOf parts := by
  induction t with
  | binary above bound left right leftIh rightIh =>
    obtain ⟨root, onLeft, onRight⟩ := tree
    rw [Tree.append]
    split
    · exact ⟨root, onLeft, rightIh onRight⟩
    · exact ⟨binary, ⟨root, onLeft, onRight⟩, trivial⟩
  | _ => exact ⟨binary, tree, trivial⟩

theorem Tree.MadeOf.wrap {ops : List (Operator m C)} {t : Tree m C} (unary : ∀ op ∈ ops, parts.unary op)
    (tree : t.MadeOf parts) : (wrap ops t).MadeOf parts := by
  induction ops with
  | nil => exact tree
  | cons op ops ih =>
    obtain ⟨first, others⟩ := List.forall_mem_cons.mp unary
    exact ⟨first, ih others⟩

/-! ## Phrases -/

/-- What the phrases of a scan bring to a tree. Behind an operand only the stop counts. -/
structure Phrase.MadeOf (parts : Parts m C) (closed : Bool) (p : Phrase m C) : Prop where
  unary : ∀ op ∈ p.unary, parts.unary op
  operand : closed = false → parts.leaf (Value.ofOperand p.operand)
  constant : ∀ entry, p.stop = .constant entry → parts.constant entry.op
  binary : ∀ entry, p.stop = .binary entry → parts.binary entry.op entry.priority

def Building.MadeOf (parts : Parts m C) : Building m C → Prop
  | .awaiting spine => spine.MadeOf parts
  | .complete tree => tree.MadeOf parts

namespace Assembly

structure MadeOf (parts : Parts m C) (a : Assembly m C) : Prop where
  spines : ∀ group ∈ a.groups, group.spine.MadeOf parts
  unary : ∀ group ∈ a.groups, ∀ op ∈ group.unary, parts.unary op
  building : a.building.MadeOf parts

theorem MadeOf.treeWith {building : Building m C} {p : Phrase m C} (made : building.MadeOf parts)
    (phrase : p.MadeOf parts building.closed) : (treeWith building p).MadeOf parts := by
  cases building with
  | awaiting spine => exact Spine.MadeOf.fill made (.wrap phrase.unary (phrase.operand rfl))
  | complete tree => exact made

theorem Takes.madeOf_next {inside : Bool} {a b : Assembly m C} {p : Phrase m C}
    (takes : Takes inside a p (.next b)) (made : a.MadeOf parts)
    (phrase : p.MadeOf parts a.building.closed) :
    b.MadeOf parts ∧ b.building.closed = p.stop.closes := by
  have tree := MadeOf.treeWith made.building phrase
  cases takes with
  | opening spine building stop bare =>
    have current := made.building
    rw [building] at current
    refine ⟨⟨?_, ?_, trivial⟩, by rw [stop]; rfl⟩
    · exact List.forall_mem_cons.mpr ⟨current, made.spines⟩
    · exact List.forall_mem_cons.mpr ⟨phrase.unary, made.unary⟩
  | constant spine building entry stop =>
    have current := made.building
    rw [building] at current
    have constant : (Tree.constant entry.op).MadeOf parts := phrase.constant entry stop
    refine ⟨⟨made.spines, made.unary, ?_⟩, by rw [stop]; rfl⟩
    exact Spine.MadeOf.fill current (.wrap phrase.unary constant)
  | binary entry stop bare =>
    exact ⟨⟨made.spines, made.unary, tree.append (phrase.binary entry stop)⟩, by rw [stop]; rfl⟩
  | closing group outer groups stop bare =>
    have spines := made.spines
    have unary := made.unary
    rw [groups, List.forall_mem_cons] at spines unary
    refine ⟨⟨spines.2, unary.2, ?_⟩, by rw [stop]; rfl⟩
    exact Spine.MadeOf.fill spines.1 (.wrap unary.1 tree)

theorem Takes.madeOf_done {inside : Bool} {a : Assembly m C} {p : Phrase m C} {t : Tree m C}
    (takes : Takes inside a p (.done t)) (made : a.MadeOf parts)
    (phrase : p.MadeOf parts a.building.closed) : t.MadeOf parts := by
  cases takes with
  | unmatched | ending => exact MadeOf.treeWith made.building phrase

end Assembly

end

/-! ## Texts -/

/-- What a grammar can make trees of. An operator without a token is never read. -/
def Grammar.parts (g : Grammar m C) : Parts m C where
  leaf v := ∃ text rest, Scan.Quiet g false [] text rest ∧ v = Value.ofOperand (trim text)
  constant op := ∃ entry ∈ g.constants, entry.token ≠ [] ∧ entry.op = op ∧
    ∃ text c rest, Scan.Quiet g false [] text (c :: rest) ∧ trim (text ++ [c]) = entry.token
  unary op := ∃ entry ∈ g.unary, entry.token ≠ [] ∧ entry.op = op
  binary op priority := ∃ entry ∈ g.binary, entry.token ≠ [] ∧ entry.op = op ∧ entry.priority = priority

namespace Scan

variable {g : Grammar m C} {s : Scan m C} {c : Char} {rest : List Char}

/-- Nothing has been recognized in the buffer. -/
structure Sound (g : Grammar m C) (s : Scan m C) (rest : List Char) : Prop where
  quiet : Quiet g s.closed [] s.buffer.reverse rest
  unary : ∀ op ∈ s.unary, g.parts.unary op

theorem sound_startingAt (closed : Bool) (start : Nat) (rest : List Char) :
    (startingAt closed start : Scan m C).Sound g rest :=
  ⟨trivial, nofun⟩

theorem Sound.more {next : Scan m C} (sound : s.Sound g (c :: rest))
    (more : s.act c (mark g s.closed s.buffer c rest) = .more next) :
    next.Sound g rest ∧ next.closed = s.closed := by
  cases moves_of_more more with
  | unary entry marked =>
    refine ⟨⟨trivial, List.forall_mem_cons.mpr ⟨?_, sound.unary⟩⟩, rfl⟩
    obtain ⟨member, some⟩ := mark_unary marked
    exact ⟨entry, member, some, rfl⟩
  | nothing marked =>
    refine ⟨⟨?_, sound.unary⟩, rfl⟩
    have quiet : Quiet g s.closed [] (s.buffer.reverse ++ [c]) rest := by
      refine quiet_append.mpr ⟨sound.quiet, ?_, trivial⟩
      simpa using marked
    simpa using quiet

theorem Sound.phrase (sound : s.Sound g (c :: rest)) {left right : List Char}
    (split : s.buffer.reverse = left ++ right) {stop : Stop m C} (length : Nat)
    (constant : ∀ entry, stop = .constant entry → g.parts.constant entry.op)
    (binary : ∀ entry, stop = .binary entry → g.parts.binary entry.op entry.priority) :
    (s.phrase left stop length).MadeOf g.parts s.closed := by
  refine ⟨fun op member => sound.unary op (List.mem_reverse.mp member), fun front => ?_, constant, binary⟩
  have quiet := sound.quiet
  rw [split, front] at quiet
  exact ⟨left, right ++ c :: rest, (quiet_append.mp quiet).1, rfl⟩

theorem Sound.found {p : Phrase m C} (sound : s.Sound g (c :: rest))
    (found : s.act c (mark g s.closed s.buffer c rest) = .found p) :
    p.MadeOf g.parts s.closed := by
  cases stops_of_found found with
  | constant entry marked =>
    obtain ⟨member, token, front, some⟩ := mark_constant marked
    have blank : trim ((c :: s.buffer).reverse.takeWhile isBlank) = [] :=
      trim_eq_nil_iff.mpr fun d inside => List.mem_takeWhile_imp inside
    refine ⟨fun op unary => sound.unary op (List.mem_reverse.mp unary), ?_, ?_, ?_⟩
    · intro _
      exact ⟨[], [], trivial, congrArg Value.ofOperand blank⟩
    · rintro _ ⟨rfl⟩
      have quiet := sound.quiet
      rw [front] at quiet token
      exact ⟨entry, member, some, rfl, _, c, rest, quiet, by rw [token, candidate, List.reverse_cons]; rfl⟩
    · rintro _ ⟨⟩
  | bracket stop written =>
    refine sound.phrase (List.append_nil _).symm _ ?_ ?_ <;>
    · rintro entry rfl
      rcases eq_of_bracket? written with ⟨_, other⟩ | ⟨_, other⟩ <;> cases other
  | binary entry left member split ends =>
    have behind := congrArg List.dropLast split
    rw [List.dropLast_concat, List.dropLast_append_of_ne_nil ends.some] at behind
    refine sound.phrase behind _ ?_ ?_
    · rintro _ ⟨⟩
    · rintro _ ⟨rfl⟩
      exact ⟨entry, member, ends.some, rfl, rfl⟩

/-- A text that has a tree adds parts of the grammar only. -/
theorem read_madeOf {inside : Bool} {a : Assembly m C} {t : Tree m C} {text : List Char}
    (sound : s.Sound g text) (same : a.building.closed = s.closed) (made : a.MadeOf g.parts)
    (parsed : g.read inside a s text = .ok t) : t.MadeOf g.parts := by
  induction text generalizing s a with
  | nil =>
    refine (of_read_nil parsed).madeOf_done made ?_
    rw [same]
    refine ⟨fun op member => sound.unary op (List.mem_reverse.mp member), fun front => ?_, nofun, nofun⟩
    have quiet := sound.quiet
    rw [front] at quiet
    exact ⟨_, [], quiet, rfl⟩
  | cons c rest ih =>
    rcases of_read_cons parsed with ⟨next, more, parsed⟩ | ⟨p, found, taken⟩
    · obtain ⟨later, closed⟩ := sound.more more
      exact ih later (same.trans closed.symm) made parsed
    · have phrase := sound.found found
      rw [← same] at phrase
      rcases taken with done | ⟨b, taken, parsed⟩
      · exact done.madeOf_done made phrase
      · obtain ⟨next, closed⟩ := taken.madeOf_next made phrase
        rw [after_eq] at parsed
        exact ih (sound_startingAt _ _ _) closed next parsed

end Scan

theorem Assembly.madeOf_empty (parts : Parts m C) : (Assembly.empty : Assembly m C).MadeOf parts :=
  ⟨nofun, nofun, trivial⟩

theorem Grammar.parse_madeOf {g : Grammar m C} {text : String} {offset : Nat} {t : Tree m C}
    (parsed : g.parse text offset = .ok t) : t.MadeOf g.parts :=
  Scan.read_madeOf (Scan.sound_startingAt false offset _) rfl (Assembly.madeOf_empty _) parsed

/-! ## Folded trees -/

/-- No operator may be applied ahead of evaluation. -/
structure Parts.Unfoldable (parts : Parts Id C) : Prop where
  constant : ∀ op, parts.constant op → op.foldable = false
  unary : ∀ op, parts.unary op → op.foldable = false
  binary : ∀ op priority, parts.binary op priority → op.foldable = false

/-- Where no operator may be applied ahead, only groups around leaves are foldable. -/
theorem Tree.MadeOf.value_of_isFoldable {parts : Parts Id C} (unfoldable : parts.Unfoldable)
    {t : Tree Id C} (made : t.MadeOf parts) (foldable : t.isFoldable) (context : Option C) :
    parts.leaf (t.eval context) := by
  induction t with
  | leaf v => exact made
  | constant op =>
    have fixed := unfoldable.constant op made
    simp only [isFoldable, fixed, Bool.false_eq_true] at foldable
  | unary op operand =>
    have fixed := unfoldable.unary op made.1
    simp only [isFoldable, fixed, Bool.false_and, Bool.false_eq_true] at foldable
  | group inner ih => exact ih made foldable
  | binary op priority left right =>
    have fixed := unfoldable.binary op priority made.1
    simp only [isFoldable, fixed, Bool.false_and, Bool.false_eq_true] at foldable

theorem Tree.MadeOf.fold {parts : Parts Id C} (unfoldable : parts.Unfoldable) {t : Tree Id C}
    (made : t.MadeOf parts) : (Id.run t.fold).MadeOf parts := by
  induction t with
  | leaf v => exact made
  | constant op =>
    rw [Tree.fold, unfoldable.constant op made]
    exact made
  | unary op operand ih =>
    rw [Tree.fold, isFoldable, unfoldable.unary op made.1]
    exact ⟨made.1, ih made.2⟩
  | group inner ih =>
    rw [Tree.fold]
    split
    · next foldable => exact made.value_of_isFoldable unfoldable (t := inner) foldable none
    · exact ih made
  | binary op priority left right leftIh rightIh =>
    rw [Tree.fold, isFoldable, unfoldable.binary op priority made.1]
    exact ⟨made.1, leftIh made.2.1, rightIh made.2.2⟩

end Formula
