import Mathlib.Data.List.Forall2
import Formula.Proofs.Scanning
import Formula.Proofs.Assembling

/-!
# Related vocabularies

Scanning and assembling look at the tokens of operators and never at what these do, and positions are
kept for errors only. So grammars whose operators are related, place by place, by any relation that
keeps tokens give related trees for every text, or the same error; if one text starts later by some
shift, all positions do.
-/

namespace Formula

open List (Forall₂)

variable {m n : Type → Type} {C D : Type}

section Relations

variable (R : Operator m C → Operator n D → Prop) (shift : Nat)

structure Entry.Related (a : Entry m C) (b : Entry n D) : Prop where
  op : R a.op b.op
  priority : a.priority = b.priority
  token : a.token = b.token
  word : a.word = b.word
  longerEnding : a.longerEnding = b.longerEnding
  longerStarting : a.longerStarting = b.longerStarting

structure Grammar.Related (g : Grammar m C) (h : Grammar n D) : Prop where
  binary : Forall₂ (Entry.Related R) g.binary h.binary
  unary : Forall₂ (Entry.Related R) g.unary h.unary
  constants : Forall₂ (Entry.Related R) g.constants h.constants
  spacing : g.spacing = h.spacing

structure Vocabulary.Related (v : Vocabulary m C) (w : Vocabulary n D) : Prop where
  binary : Forall₂ R v.binary w.binary
  unary : Forall₂ R v.unary w.unary
  constants : Forall₂ R v.constants w.constants

inductive Stop.Related : Stop m C → Stop n D → Prop where
  | ending : Related .ending .ending
  | opening : Related .opening .opening
  | closing : Related .closing .closing
  | constant {a : Entry m C} {b : Entry n D} (entry : a.Related R b) :
      Related (.constant a) (.constant b)
  | binary {a : Entry m C} {b : Entry n D} (entry : a.Related R b) : Related (.binary a) (.binary b)

structure Phrase.Related (p : Phrase m C) (q : Phrase n D) : Prop where
  unary : Forall₂ R p.unary q.unary
  operand : p.operand = q.operand
  operandStart : q.operandStart = p.operandStart + shift
  stop : p.stop.Related R q.stop
  stopStart : q.stopStart = p.stopStart + shift
  next : q.next = p.next + shift

structure Scan.Related (s : Scan m C) (t : Scan n D) : Prop where
  closed : s.closed = t.closed
  unary : Forall₂ R s.unary t.unary
  start : t.start = s.start + shift
  buffer : s.buffer = t.buffer

inductive Scan.Outcome.Related : Scan.Outcome m C → Scan.Outcome n D → Prop where
  | more {s : Scan m C} {t : Scan n D} (scan : s.Related R shift t) : Related (.more s) (.more t)
  | found {p : Phrase m C} {q : Phrase n D} (phrase : p.Related R shift q) :
      Related (.found p) (.found q)

inductive Mark.Related : Mark m C → Mark n D → Prop where
  | constant {a : Entry m C} {b : Entry n D} (entry : a.Related R b) :
      Related (.constant a) (.constant b)
  | unary {a : Entry m C} {b : Entry n D} (entry : a.Related R b) : Related (.unary a) (.unary b)
  | bracket {a : Stop m C} {b : Stop n D} (stop : a.Related R b) : Related (.bracket a) (.bracket b)
  | binary {a : Entry m C} {b : Entry n D} (entry : a.Related R b) : Related (.binary a) (.binary b)
  | nothing : Related .nothing .nothing

inductive Tree.Related : Tree m C → Tree n D → Prop where
  | leaf (v : Value) : Related (.leaf v) (.leaf v)
  | constant {a : Operator m C} {b : Operator n D} (op : R a b) : Related (.constant a) (.constant b)
  | unary {a : Operator m C} {b : Operator n D} {t : Tree m C} {u : Tree n D} (op : R a b)
      (operand : Related t u) : Related (.unary a t) (.unary b u)
  | group {t : Tree m C} {u : Tree n D} (inner : Related t u) : Related (.group t) (.group u)
  | binary {a : Operator m C} {b : Operator n D} {t t' : Tree m C} {u u' : Tree n D} (op : R a b)
      (priority : Nat) (left : Related t u) (right : Related t' u') :
      Related (.binary a priority t t') (.binary b priority u u')

inductive Spine.Related : Spine m C → Spine n D → Prop where
  | hole : Related .hole .hole
  | binary {a : Operator m C} {b : Operator n D} {t : Tree m C} {u : Tree n D} {r : Spine m C}
      {s : Spine n D} (op : R a b) (priority : Nat) (left : t.Related R u) (right : Related r s) :
      Related (.binary a priority t r) (.binary b priority u s)

structure OpenGroup.Related (a : OpenGroup m C) (b : OpenGroup n D) : Prop where
  position : b.position = a.position + shift
  unary : Forall₂ R a.unary b.unary
  spine : a.spine.Related R b.spine

inductive Building.Related : Building m C → Building n D → Prop where
  | awaiting {r : Spine m C} {s : Spine n D} (spine : r.Related R s) :
      Related (.awaiting r) (.awaiting s)
  | complete {t : Tree m C} {u : Tree n D} (tree : t.Related R u) : Related (.complete t) (.complete u)

structure Assembly.Related (a : Assembly m C) (b : Assembly n D) : Prop where
  groups : Forall₂ (OpenGroup.Related R shift) a.groups b.groups
  building : a.building.Related R b.building

inductive Assembly.Outcome.Related : Assembly.Outcome m C → Assembly.Outcome n D → Prop where
  | next {a : Assembly m C} {b : Assembly n D} (assembly : a.Related R shift b) :
      Related (.next a) (.next b)
  | done {t : Tree m C} {u : Tree n D} (tree : t.Related R u) : Related (.done t) (.done u)

end Relations

/-- The error of a text that stands further back. -/
def CompileError.shift (bytes : Nat) : CompileError → CompileError
  | .unclosedBracket position => .unclosedBracket (position + bytes)
  | .unexpectedCloseBracket position => .unexpectedCloseBracket (position + bytes)
  | .danglingOperand operand position => .danglingOperand operand (position + bytes)

/-- Two results that are the same error, but for the shift, or related answers. -/
inductive CompileError.AlikeBy (shift : Nat) {α β : Type} (S : α → β → Prop) :
    Except CompileError α → Except CompileError β → Prop where
  | error (e : CompileError) : AlikeBy shift S (.error e) (.error (e.shift shift))
  | ok {a : α} {b : β} (related : S a b) : AlikeBy shift S (.ok a) (.ok b)

/-- Two results that are the same error or related answers. -/
inductive CompileError.Alike {α β : Type} (S : α → β → Prop) :
    Except CompileError α → Except CompileError β → Prop where
  | error (e : CompileError) : Alike S (.error e) (.error e)
  | ok {a : α} {b : β} (related : S a b) : Alike S (.ok a) (.ok b)

theorem CompileError.shift_zero (e : CompileError) : e.shift 0 = e := by
  cases e <;> rfl

theorem CompileError.AlikeBy.unshifted {α β : Type} {S : α → β → Prop} {x : Except CompileError α}
    {y : Except CompileError β} (alike : AlikeBy 0 S x y) : Alike S x y := by
  cases alike with
  | error e =>
    rw [shift_zero]
    exact .error e
  | ok related => exact .ok related

theorem CompileError.AlikeBy.map {shift : Nat} {α β α' β' : Type} {S : α → β → Prop}
    {S' : α' → β' → Prop} {x : Except CompileError α} {y : Except CompileError β}
    (alike : AlikeBy shift S x y) {f : α → α'} {g : β → β'} (keeps : ∀ a b, S a b → S' (f a) (g b)) :
    AlikeBy shift S' (f <$> x) (g <$> y) := by
  cases alike with
  | error e => exact .error e
  | ok related => exact .ok (keeps _ _ related)

theorem CompileError.Alike.map {α β α' β' : Type} {S : α → β → Prop} {S' : α' → β' → Prop}
    {x : Except CompileError α} {y : Except CompileError β} (alike : Alike S x y) {f : α → α'}
    {g : β → β'} (keeps : ∀ a b, S a b → S' (f a) (g b)) : Alike S' (f <$> x) (g <$> y) := by
  cases alike with
  | error e => exact .error e
  | ok related => exact .ok (keeps _ _ related)

variable {R : Operator m C → Operator n D → Prop} {shift : Nat}

/-! ## Tables -/

theorem Entry.table_related {ops : List (Operator m C)} {others : List (Operator n D)}
    (tokens : ∀ a b, R a b → a.token = b.token) (related : Forall₂ R ops others) :
    Forall₂ (Entry.Related R) (Entry.table ops) (Entry.table others) := by
  have same : ops.map (fun op => op.token.toList) = others.map fun op => op.token.toList := by
    rw [← List.forall₂_eq_eq_eq, List.forall₂_map_left_iff, List.forall₂_map_right_iff]
    exact related.imp fun a b ab => by rw [tokens a b ab]
  unfold Entry.table
  dsimp only
  rw [same]
  generalize others.map _ = all
  clear same
  generalize 0 = place
  induction related generalizing place with
  | nil => exact .nil
  | @cons a b _ _ ab _ ih =>
    refine .cons ?_ (ih (place + 1))
    have token := tokens a b ab
    exact ⟨ab, rfl, by simp [ofOperator, token], by simp [ofOperator, token],
      by simp [ofOperator, token], by simp [ofOperator, token]⟩

theorem Grammar.ofVocabulary_related {v : Vocabulary m C} {w : Vocabulary n D}
    (tokens : ∀ a b, R a b → a.token = b.token) (related : v.Related R w) (spacing : Spacing) :
    (Grammar.ofVocabulary v spacing).Related R (.ofVocabulary w spacing) :=
  ⟨Entry.table_related tokens related.binary, Entry.table_related tokens related.unary,
    Entry.table_related tokens related.constants, rfl⟩

theorem Entry.find?_related {entries : List (Entry m C)} {others : List (Entry n D)}
    (related : Forall₂ (Entry.Related R) entries others) {p : Entry m C → Bool} {q : Entry n D → Bool}
    (same : ∀ a b, a.Related R b → p a = q b) :
    Option.Rel (Entry.Related R) (entries.find? p) (others.find? q) := by
  induction related with
  | nil => exact .none
  | @cons a b _ _ ab _ ih =>
    rw [List.find?_cons, List.find?_cons, same a b ab]
    split
    · exact .some ab
    · exact ih

/-! ## Scanning -/

namespace Scan

theorem whole?_related {entries : List (Entry m C)} {others : List (Entry n D)}
    (related : Forall₂ (Entry.Related R) entries others) (spacing : Spacing) (text rest : List Char) :
    Option.Rel (Entry.Related R) (whole? spacing entries text rest) (whole? spacing others text rest) := by
  unfold whole?
  split
  · exact .none
  · exact Entry.find?_related related fun a b ab => by rw [ab.token, ab.word]

theorem endsWith_related {a : Entry m C} {b : Entry n D} (related : a.Related R b) (spacing : Spacing)
    (closed : Bool) (reversed rest : List Char) :
    endsWith spacing closed reversed rest a = endsWith spacing closed reversed rest b := by
  simp only [endsWith, related.token, related.word, related.longerEnding, related.longerStarting]

theorem bracket?_related (c : Char) (allowed : Bool) :
    Option.Rel (Stop.Related R) ((bracket? c).filter fun _ => allowed)
      ((bracket? c).filter fun _ => allowed) := by
  unfold bracket?
  cases allowed
  · split <;> exact .none
  · split
    · exact .some .opening
    · exact .some .closing
    · exact .none

theorem mark_related {g : Grammar m C} {h : Grammar n D} (related : g.Related R h) (closed : Bool)
    (buffer : List Char) (c : Char) (rest : List Char) :
    (mark g closed buffer c rest).Related R (mark h closed buffer c rest) := by
  unfold mark
  rw [related.spacing]
  have constants := whole?_related related.constants h.spacing (candidate closed (c :: buffer)) rest
  generalize whole? _ g.constants _ _ = constant at constants ⊢
  generalize whole? _ h.constants _ _ = constant' at constants ⊢
  cases constants with
  | some entry => exact .constant entry
  | none =>
  have unary := whole?_related related.unary h.spacing (candidate closed (c :: buffer)) rest
  generalize whole? _ g.unary _ _ = unary at unary ⊢
  generalize whole? _ h.unary _ _ = unary' at unary ⊢
  cases unary with
  | some entry => exact .unary entry
  | none =>
  have bracket : Option.Rel (Stop.Related R) _ _ := bracket?_related c !isOpenQuote (trim buffer.reverse)
  generalize (bracket? c : Option (Stop m C)).filter _ = bracket at bracket ⊢
  generalize (bracket? c : Option (Stop n D)).filter _ = bracket' at bracket ⊢
  cases bracket with
  | some stop => exact .bracket stop
  | none =>
  have binary := Entry.find?_related related.binary fun a b ab =>
    endsWith_related ab h.spacing closed (c :: buffer) rest
  generalize g.binary.find? _ = binary at binary ⊢
  generalize h.binary.find? _ = binary' at binary ⊢
  cases binary with
  | some entry => exact .binary entry
  | none => exact .nothing

theorem Related.phrase {s : Scan m C} {t : Scan n D} (scan : s.Related R shift t) {a : Stop m C}
    {b : Stop n D} (stop : a.Related R b) (left : List Char) (length : Nat) :
    (s.phrase left a length).Related R shift (t.phrase left b length) := by
  obtain ⟨_, unary, start, _⟩ := scan
  refine ⟨List.rel_reverse unary, rfl, ?_, stop, ?_, ?_⟩ <;>
    simp only [Scan.phrase, start, Nat.add_right_comm]

theorem Related.act {s : Scan m C} {t : Scan n D} (scan : s.Related R shift t) (c : Char) {a : Mark m C}
    {b : Mark n D} (mark : a.Related R b) : (s.act c a).Related R shift (t.act c b) := by
  obtain ⟨closed, unary, start, buffer⟩ := id scan
  cases mark with
  | constant entry =>
    have phrase := scan.phrase (.constant entry) ((c :: s.buffer).reverse.takeWhile isBlank) 0
    rw [Scan.act, Scan.act, ← buffer, start]
    exact .found ⟨phrase.unary, phrase.operand, phrase.operandStart, phrase.stop, phrase.stopStart,
      Nat.add_right_comm ..⟩
  | unary entry =>
    rw [Scan.act, Scan.act, ← buffer, start, ← closed]
    exact .more ⟨rfl, .cons entry.op unary, Nat.add_right_comm .., rfl⟩
  | bracket stop =>
    rw [Scan.act, Scan.act, ← buffer]
    exact .found (scan.phrase stop _ _)
  | binary entry =>
    rw [Scan.act, Scan.act, ← buffer, ← entry.token]
    exact .found (scan.phrase (.binary entry) _ _)
  | nothing =>
    rw [Scan.act, Scan.act, ← buffer]
    exact .more ⟨closed, unary, start, rfl⟩

theorem Related.after {p : Phrase m C} {q : Phrase n D} (phrase : p.Related R shift q) :
    (after p).Related R shift (after q) := by
  have stop := phrase.stop
  unfold Scan.after
  rw [phrase.next]
  generalize p.stop = a at stop
  generalize q.stop = b at stop
  cases stop <;> exact ⟨rfl, .nil, rfl, rfl⟩

theorem Related.phrases {g : Grammar m C} {h : Grammar n D} (related : g.Related R h)
    (text : List Char) {s : Scan m C} {t : Scan n D} (scan : s.Related R shift t) :
    Forall₂ (Phrase.Related R shift) (s.phrases g text) (t.phrases h text) := by
  induction text generalizing s t with
  | nil =>
    rw [Scan.phrases, Scan.phrases, finish, finish, ← scan.buffer]
    exact .cons (scan.phrase .ending _ _) .nil
  | cons c rest ih =>
    have outcome := scan.act c (mark_related related s.closed s.buffer c rest)
    rw [Scan.phrases, Scan.phrases, step_eq_act, step_eq_act, ← scan.closed, ← scan.buffer]
    generalize s.act c _ = a at outcome ⊢
    generalize t.act c _ = b at outcome ⊢
    cases outcome with
    | more next => exact ih next
    | found phrase => exact .cons phrase (ih (.after phrase))

end Scan

/-! ## Assembling -/

theorem Spine.Related.fill {r : Spine m C} {s : Spine n D} (spine : r.Related R s) {t : Tree m C}
    {u : Tree n D} (tree : t.Related R u) : (r.fill t).Related R (s.fill u) := by
  induction spine with
  | hole => exact tree
  | binary op priority left _ ih => exact .binary op priority left ih

theorem Tree.Related.append {t : Tree m C} {u : Tree n D} (tree : t.Related R u) {a : Operator m C}
    {b : Operator n D} (op : R a b) (priority : Nat) :
    (t.append a priority).Related R (u.append b priority) := by
  induction tree with
  | binary above bound left right leftIh rightIh =>
    rw [Tree.append, Tree.append]
    split
    · exact .binary above bound left rightIh
    · exact .binary op priority (.binary above bound left right) .hole
  | leaf v => exact .binary op priority (.leaf v) .hole
  | constant other => exact .binary op priority (.constant other) .hole
  | unary other operand => exact .binary op priority (.unary other operand) .hole
  | group inner => exact .binary op priority (.group inner) .hole

theorem Tree.Related.wrap {ops : List (Operator m C)} {others : List (Operator n D)}
    (unary : Forall₂ R ops others) {t : Tree m C} {u : Tree n D} (tree : t.Related R u) :
    (wrap ops t).Related R (wrap others u) := by
  induction unary with
  | nil => exact tree
  | cons op _ ih => exact .unary op ih

namespace Assembly

theorem Related.operandTree {r : Spine m C} {s : Spine n D} (spine : r.Related R s)
    {p : Phrase m C} {q : Phrase n D} (phrase : p.Related R shift q) :
    (operandTree r p).Related R (operandTree s q) := by
  rw [Assembly.operandTree, Assembly.operandTree, phrase.operand]
  exact spine.fill (.wrap phrase.unary (.leaf _))

theorem Related.close {groups : List (OpenGroup m C)} {others : List (OpenGroup n D)}
    (related : Forall₂ (OpenGroup.Related R shift) groups others) {t : Tree m C} {u : Tree n D}
    (tree : t.Related R u) (inside : Bool) (position : Nat) :
    CompileError.AlikeBy shift (Outcome.Related R shift) (close inside groups t position)
      (close inside others u (position + shift)) := by
  cases related with
  | nil =>
    cases inside with
    | true => exact .ok (.done tree)
    | false => exact .error (.unexpectedCloseBracket position)
  | cons group outer =>
    exact .ok (.next ⟨outer, .complete (group.spine.fill (.wrap group.unary (.group tree)))⟩)

theorem Related.finish {groups : List (OpenGroup m C)} {others : List (OpenGroup n D)}
    (related : Forall₂ (OpenGroup.Related R shift) groups others) {t : Tree m C} {u : Tree n D}
    (tree : t.Related R u) :
    CompileError.AlikeBy shift (Tree.Related R) (finish groups t) (finish others u) := by
  cases related with
  | nil => exact .ok tree
  | cons group outer =>
    rw [Assembly.finish, Assembly.finish, group.position]
    exact .error (.unclosedBracket _)

theorem Related.step {a : Assembly m C} {b : Assembly n D} (assembly : a.Related R shift b)
    {p : Phrase m C} {q : Phrase n D} (phrase : p.Related R shift q) (inside : Bool) :
    CompileError.AlikeBy shift (Outcome.Related R shift) (a.step inside p) (b.step inside q) := by
  obtain ⟨groups, building⟩ := assembly
  have stop := phrase.stop
  unfold Assembly.step
  rw [phrase.operand, phrase.operandStart, phrase.stopStart]
  generalize a.building = current at building
  generalize b.building = current' at building
  generalize p.stop = last at stop
  generalize q.stop = last' at stop
  cases building with
  | awaiting spine =>
    have operand := Related.operandTree spine phrase
    cases stop with
    | opening =>
      dsimp only
      split
      · exact .ok (.next ⟨.cons ⟨rfl, phrase.unary, spine⟩ groups, .awaiting .hole⟩)
      · exact .error (.danglingOperand ..)
    | constant entry =>
      exact .ok (.next ⟨groups, .complete (spine.fill (.wrap phrase.unary (.constant entry.op)))⟩)
    | binary entry =>
      dsimp only
      rw [entry.priority]
      exact .ok (.next ⟨groups, .awaiting (operand.append entry.op _)⟩)
    | closing => exact Related.close groups operand inside p.stopStart
    | ending => exact (Related.finish groups operand).map fun _ _ => Outcome.Related.done
  | complete tree =>
    dsimp only
    split
    · cases stop with
      | opening => exact .error (.danglingOperand ..)
      | constant entry =>
        dsimp only
        rw [entry.token]
        exact .error (.danglingOperand ..)
      | binary entry =>
        dsimp only
        rw [entry.priority]
        exact .ok (.next ⟨groups, .awaiting (tree.append entry.op _)⟩)
      | closing => exact Related.close groups tree inside p.stopStart
      | ending => exact (Related.finish groups tree).map fun _ _ => Outcome.Related.done
    · exact .error (.danglingOperand ..)

theorem Related.run {ps : List (Phrase m C)} {qs : List (Phrase n D)}
    (phrases : Forall₂ (Phrase.Related R shift) ps qs) {a : Assembly m C} {b : Assembly n D}
    (assembly : a.Related R shift b) (inside : Bool) :
    CompileError.AlikeBy shift (Tree.Related R) (a.run inside ps) (b.run inside qs) := by
  induction phrases generalizing a b with
  | nil =>
    obtain ⟨groups, building⟩ := assembly
    rw [Assembly.run, Assembly.run, Assembly.stop, Assembly.stop]
    generalize a.building = current at building
    generalize b.building = current' at building
    cases building with
    | awaiting spine => exact Related.finish groups (spine.fill (.leaf _))
    | complete tree => exact Related.finish groups tree
  | cons phrase _ ih =>
    have outcome := assembly.step phrase inside
    rw [Assembly.run, Assembly.run]
    generalize a.step inside _ = x at outcome
    generalize b.step inside _ = y at outcome
    cases outcome with
    | error e => exact .error e
    | ok related =>
      cases related with
      | next assembly => exact ih assembly
      | done tree => exact .ok tree

end Assembly

/-- Related grammars give related trees for a text, or the same error. -/
theorem Grammar.Related.parse {g : Grammar m C} {h : Grammar n D} (related : g.Related R h)
    (text : String) (offset : Nat) :
    CompileError.Alike (Tree.Related R) (g.parse text offset) (h.parse text offset) := by
  have phrases := Scan.Related.phrases related ((dropBytes? offset text.toList).getD [])
    (⟨rfl, .nil, rfl, rfl⟩ : Scan.Related R 0 (.startingAt false offset) (.startingAt false offset))
  exact (Assembly.Related.run phrases ⟨.nil, .awaiting .hole⟩ _).unshifted

end Formula
