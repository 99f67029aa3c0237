import Formula.Proofs.Assembling
import Formula.Proofs.Climbing
import Formula.Proofs.Scanning

/-!
# Precedence

Assembling the phrases of a text keeps their items in order and keeps all that is put together
grouped, so the tree is the one that climbing over the items gives.
-/

namespace Formula

variable {m : Type → Type} {C : Type}

/-! ## Items of phrases -/

/-- The operand of a phrase with its unary operators. Behind an operand there is none. -/
def Phrase.operandItems (closed : Bool) (p : Phrase m C) : List (Item m C) :=
  p.unary.map .unary ++ if closed then [] else [.value (Value.ofOperand p.operand)]

def Phrase.items (closed : Bool) (p : Phrase m C) : List (Item m C) :=
  match p.stop with
  | .opening => p.unary.map .unary ++ [.opening]
  | .constant entry => p.unary.map .unary ++ [.constant entry.op]
  | .binary entry => p.operandItems closed ++ [.binary entry.op entry.priority]
  | .closing => p.operandItems closed ++ [.closing]
  | .ending => p.operandItems closed

/-- The items of a row of phrases, the first of which stands behind an operand if `closed`. -/
def Phrase.allItems : Bool → List (Phrase m C) → List (Item m C)
  | _, [] => []
  | closed, p :: rest => p.items closed ++ allItems p.stop.closes rest

/-- A row of phrases of which only the last is ended by the end of the text. Behind an operand no
unary operator is read. -/
inductive Phrase.Row : Bool → List (Phrase m C) → Prop where
  | last {closed : Bool} {p : Phrase m C} (unary : closed → p.unary = []) (ending : p.stop = .ending) :
      Row closed [p]
  | next {closed : Bool} {p : Phrase m C} {rest : List (Phrase m C)} (unary : closed → p.unary = [])
      (ending : p.stop ≠ .ending) (row : Row p.stop.closes rest) : Row closed (p :: rest)

theorem Scan.phrases_row (g : Grammar m C) (s : Scan m C) (text : List Char)
    (unary : s.closed → s.unary = []) : Phrase.Row s.closed (s.phrases g text) := by
  fun_induction Scan.phrases g s text with
  | case1 s => exact .last (fun closed => by simp [finish, phrase, unary closed]) rfl
  | case2 s c rest next more ih =>
    obtain ⟨same, kept⟩ := step_more more
    rw [same] at ih
    exact ih fun closed => (kept closed).trans (unary closed)
  | case3 s c rest p found ih =>
    obtain ⟨taken, ending⟩ := step_found found
    rw [after_eq] at ih ⊢
    exact .next (fun closed => by simp [taken, unary closed]) ending (ih fun _ => rfl)

/-! ## Items of an assembly -/

def Building.items : Building m C → List (Item m C)
  | .awaiting spine => spine.items
  | .complete tree => tree.items

def Building.Grouped : Building m C → Prop
  | .awaiting spine => spine.Grouped
  | .complete tree => tree.Grouped

namespace Assembly

/-- The items in front of the innermost open group. -/
def itemsAround : List (OpenGroup m C) → List (Item m C)
  | [] => []
  | g :: outer => itemsAround outer ++ (g.spine.items ++ g.unary.map .unary ++ [.opening])

def items (a : Assembly m C) : List (Item m C) :=
  itemsAround a.groups ++ a.building.items

def Grouped (a : Assembly m C) : Prop :=
  (∀ g ∈ a.groups, g.spine.Grouped) ∧ a.building.Grouped

theorem items_treeWith {building : Building m C} {p : Phrase m C}
    (unary : building.closed → p.unary = []) :
    (treeWith building p).items = building.items ++ p.operandItems building.closed := by
  cases building with
  | awaiting spine =>
    simp [treeWith, operandTree, Tree.items, Building.items, Phrase.operandItems, Building.closed]
  | complete tree =>
    simp [treeWith, Building.items, Phrase.operandItems, unary rfl, Building.closed]

theorem grouped_treeWith {building : Building m C} (grouped : building.Grouped) (p : Phrase m C) :
    (treeWith building p).Grouped := by
  cases building with
  | awaiting spine =>
    have leaf : (Tree.leaf (Value.ofOperand p.operand) : Tree m C).Grouped := trivial
    exact Spine.Grouped.fill grouped (leaf.wrap trivial p.unary) (Tree.isAtom_wrap p.unary trivial)
  | complete tree => exact grouped

theorem items_close (g : OpenGroup m C) (inner : Tree m C) :
    (g.close inner).items =
      g.spine.items ++ g.unary.map .unary ++ [.opening] ++ inner.items ++ [.closing] := by
  rw [OpenGroup.close, Spine.items_fill, Tree.items_wrap, Tree.items]
  simp

theorem grouped_close {g : OpenGroup m C} (grouped : g.spine.Grouped) {inner : Tree m C}
    (innerGrouped : inner.Grouped) : (g.close inner).Grouped := by
  have group : (Tree.group inner).Grouped := innerGrouped
  exact grouped.fill (group.wrap trivial g.unary) (Tree.isAtom_wrap g.unary trivial)

/-- A phrase adds its items at the end and leaves all grouped. -/
theorem Takes.items_next {inside : Bool} {a b : Assembly m C} {p : Phrase m C}
    (takes : Takes inside a p (.next b)) (unary : a.building.closed → p.unary = []) :
    b.items = a.items ++ p.items a.building.closed ∧ b.building.closed = p.stop.closes ∧
      p.stop ≠ .ending ∧ (a.Grouped → b.Grouped) := by
  have operand := items_treeWith unary
  cases takes with
  | opening spine building stop bare =>
    refine ⟨?_, by simp only [stop]; rfl, by simp [stop], fun grouped => ?_⟩
    · simp [items, itemsAround, Building.items, building, Phrase.items, stop, Spine.items]
    · refine ⟨fun g member => ?_, trivial⟩
      rcases List.mem_cons.mp member with rfl | outer
      · have spineGrouped := grouped.2
        rw [building] at spineGrouped
        exact spineGrouped
      · exact grouped.1 g outer
  | constant spine building entry stop =>
    refine ⟨?_, by simp only [stop]; rfl, by simp [stop], fun grouped => ?_⟩
    · simp [items, Building.items, building, Phrase.items, stop, Tree.items]
    · have spineGrouped := grouped.2
      rw [building] at spineGrouped
      have constant : (Tree.constant entry.op).Grouped := trivial
      exact ⟨grouped.1, Spine.Grouped.fill spineGrouped (constant.wrap trivial p.unary)
        (Tree.isAtom_wrap p.unary trivial)⟩
  | binary entry stop bare =>
    refine ⟨?_, by simp only [stop]; rfl, by simp [stop], fun grouped => ?_⟩
    · rw [items, Building.items, Tree.items_append, operand]
      simp [items, Phrase.items, stop]
    · exact ⟨grouped.1, (grouped_treeWith grouped.2 p).append entry.op entry.priority⟩
  | closing g outer groups stop bare =>
    refine ⟨?_, by simp only [stop]; rfl, by simp [stop], fun grouped => ?_⟩
    · simp [items, itemsAround, Building.items, groups, Phrase.items, stop, items_close, operand]
    · rw [Grouped, groups] at grouped
      exact ⟨fun other member => grouped.1 other (List.mem_cons_of_mem _ member),
        grouped_close (grouped.1 g (List.mem_cons_self ..)) (grouped_treeWith grouped.2 p)⟩

/-- A phrase that completes the tree is the end of the text or, inside a group, its bracket. -/
theorem Takes.items_done {inside : Bool} {a : Assembly m C} {p : Phrase m C} {t : Tree m C}
    (takes : Takes inside a p (.done t)) (unary : a.building.closed → p.unary = []) :
    (a.Grouped → t.Grouped) ∧
      (p.stop = .ending ∧ t.items = a.items ++ p.items a.building.closed ∨
        p.stop = .closing ∧ inside = true ∧
          t.items ++ [.closing] = a.items ++ p.items a.building.closed) := by
  have operand := items_treeWith unary
  cases takes with
  | unmatched groups within stop bare =>
    refine ⟨fun grouped => grouped_treeWith grouped.2 p, Or.inr ⟨stop, within, ?_⟩⟩
    simp only [operand, items, groups, itemsAround, Phrase.items, stop, List.append_assoc,
      List.nil_append]
  | ending groups stop bare =>
    refine ⟨fun grouped => grouped_treeWith grouped.2 p, Or.inl ⟨stop, ?_⟩⟩
    simp only [operand, items, groups, itemsAround, Phrase.items, stop, List.nil_append]

/-- A run that succeeds has put together all items up to the end, or up to the bracket that closes
the group it started in. -/
theorem run_items {inside : Bool} {a : Assembly m C} {ps : List (Phrase m C)} {t : Tree m C}
    (row : Phrase.Row a.building.closed ps) (ran : a.run inside ps = .ok t) (grouped : a.Grouped) :
    t.Grouped ∧ ∃ unread, t.items ++ unread = a.items ++ Phrase.allItems a.building.closed ps ∧
      (unread = [] ∨ inside = true ∧ ∃ later, unread = .closing :: later) := by
  induction ps generalizing a with
  | nil => cases row
  | cons p rest ih =>
    have unary : a.building.closed → p.unary = [] := by cases row <;> assumption
    rw [run] at ran
    split at ran
    · next b taken =>
      obtain ⟨items, closed, ending, keeps⟩ := (takes_of_step taken).items_next unary
      cases row with
      | last _ stop => exact absurd stop ending
      | next _ _ row =>
        rw [← closed] at row
        obtain ⟨whole, unread, split, stopped⟩ := ih row ran (keeps grouped)
        refine ⟨whole, unread, ?_, stopped⟩
        rw [split, items, closed, Phrase.allItems, List.append_assoc]
    · next tree taken =>
      cases ran
      obtain ⟨whole, ⟨stop, items⟩ | ⟨stop, within, items⟩⟩ := (takes_of_step taken).items_done unary
      · refine ⟨whole grouped, [], ?_, Or.inl rfl⟩
        cases row with
        | last => rw [List.append_nil, items, Phrase.allItems, Phrase.allItems, List.append_nil]
        | next _ ending _ => exact absurd stop ending
      · refine ⟨whole grouped, .closing :: Phrase.allItems p.stop.closes rest, ?_, ?_⟩
        · rw [Phrase.allItems, ← List.append_assoc, ← items, List.append_assoc]
          rfl
        · exact Or.inr ⟨within, _, rfl⟩
    · cases ran

end Assembly

/-- The items of a text from a byte offset on, in the order in which a scan finds them. -/
def Grammar.scanned (g : Grammar m C) (text : String) (offset : Nat) : List (Item m C) :=
  Phrase.allItems false
    (Scan.phrases g (.startingAt false offset) ((dropBytes? offset text.toList).getD []))

theorem Grammar.parse_items {g : Grammar m C} {text : String} {offset : Nat} {t : Tree m C}
    (parsed : g.parse text offset = .ok t) :
    t.Grouped ∧ ∃ unread, t.items ++ unread = g.scanned text offset ∧
      (unread = [] ∨ 0 < offset ∧ ∃ later, unread = .closing :: later) := by
  have row : Phrase.Row (Assembly.empty : Assembly m C).building.closed _ :=
    Scan.phrases_row g (.startingAt false offset) ((dropBytes? offset text.toList).getD []) nofun
  have start : (Assembly.empty : Assembly m C).Grouped := ⟨nofun, trivial⟩
  obtain ⟨grouped, unread, items, stopped⟩ := Assembly.run_items row parsed start
  exact ⟨grouped, unread, items,
    stopped.imp_right fun ⟨within, later⟩ => ⟨of_decide_eq_true within, later⟩⟩

/-- The tree of a text is the one that climbing by precedence reads from the items of its scan. All
of them are in the tree, in their order, up to the end of the text or, from the inside of a group, to
the bracket that closes it. Each operator has a tighter one on its left and one at most as loose on
its right, so the root is the leftmost of the loosest; unary operators wrap the next atom only. -/
theorem Grammar.parse_climbs {g : Grammar m C} {text : String} {offset : Nat} {t : Tree m C}
    (parsed : g.parse text offset = .ok t) :
    ∃ unread,
      (∃ shorter, climb none (g.scanned text offset) = some (t, ⟨unread, shorter⟩)) ∧
        t.items ++ unread = g.scanned text offset ∧
        (unread = [] ∨ 0 < offset ∧ ∃ later, unread = .closing :: later) ∧ t.Grouped ∧
        ∀ op priority left right, t = .binary op priority left right →
          (∀ other ∈ left.priorities, other < priority) ∧
            ∀ other ∈ right.priorities, other ≤ priority := by
  obtain ⟨grouped, unread, items, stopped⟩ := parse_items parsed
  have noBinary : ∀ op priority later, unread ≠ .binary op priority :: later := by
    rintro op priority later rfl
    rcases stopped with none | ⟨_, _, closing⟩
    · cases none
    · cases closing
  refine ⟨unread, ?_, items, stopped, grouped, ?_⟩
  · rw [← items]
    exact grouped.climbs.1.whole unread noBinary
  · rintro op priority left right rfl
    exact grouped.root_loosest

/-- The built-in operators, for a host that has nothing to look up. -/
def Grammar.hostless : Grammar Id Unit :=
  .ofVocabulary (.builtin ⟨fun _ _ => .absent⟩) .wordsOnly

theorem Grammar.parse_climbs_difference :
    ∃ t, hostless.parse "-a - b * (c - d) - e" 0 = .ok t ∧ t.priorities = [5, 2, 5] ∧
      ∃ rest, climb none (hostless.scanned "-a - b * (c - d) - e" 0) = some (t, rest) ∧
        t.items = hostless.scanned "-a - b * (c - d) - e" 0 := by
  have parsed : ∃ t, hostless.parse "-a - b * (c - d) - e" 0 = .ok t ∧ t.priorities = [5, 2, 5] :=
    ⟨_, rfl, rfl⟩
  obtain ⟨t, parsed, priorities⟩ := parsed
  obtain ⟨unread, ⟨shorter, climbs⟩, items, stopped, _⟩ := Grammar.parse_climbs parsed
  have all : unread = [] := stopped.resolve_right fun within => Nat.lt_irrefl 0 within.1
  refine ⟨t, parsed, priorities, _, climbs, ?_⟩
  rw [← items, all, List.append_nil]

end Formula
