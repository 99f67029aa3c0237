import Formula.Proofs.Assembling
import Formula.Proofs.Tokens

/-!
# Reading

Scanning and assembling taken together, one character after the other, and what it means that a piece
of text is read as one operand wherever an operand can stand.
-/

namespace Formula

variable {m : Type → Type} {C : Type}

/-- What becomes of an assembly when the rest of a text is scanned. -/
def Grammar.read (g : Grammar m C) (inside : Bool) (a : Assembly m C) (s : Scan m C)
    (text : List Char) : Except CompileError (Tree m C) :=
  a.run inside (s.phrases g text)

theorem Grammar.parse_zero (g : Grammar m C) (text : String) :
    g.parse text 0 = g.read false .empty (.startingAt false 0) text.toList := by
  rw [parse, dropBytes?]
  rfl

section

variable {inside : Bool} {a b : Assembly m C} {p : Phrase m C}

theorem Assembly.Takes.closed_next (takes : Takes inside a p (.next b)) :
    b.building.closed = p.stop.closes := by
  cases takes with
  | opening _ _ stop | constant _ _ _ stop | binary _ stop | closing _ _ _ stop =>
    rw [stop]
    rfl

theorem Assembly.Takes.ne_ending (takes : Takes inside a p (.next b)) : p.stop ≠ .ending := by
  cases takes with
  | opening _ _ stop | constant _ _ _ stop | binary _ stop | closing _ _ _ stop =>
    rw [stop]
    exact nofun

end

namespace Scan

variable {g : Grammar m C} {inside : Bool} {a b : Assembly m C} {s : Scan m C} {c : Char}
  {rest : List Char}

theorem read_nothing (marked : mark g s.closed s.buffer c rest = .nothing) :
    g.read inside a s (c :: rest) = g.read inside a { s with buffer := c :: s.buffer } rest := by
  rw [Grammar.read, phrases, step_eq_act, marked]
  rfl

theorem read_unary {entry : Entry m C} (marked : mark g s.closed s.buffer c rest = .unary entry) :
    g.read inside a s (c :: rest) =
      g.read inside a ⟨s.closed, entry.op :: s.unary, s.start + byteLength (c :: s.buffer), []⟩ rest := by
  rw [Grammar.read, phrases, step_eq_act, marked]
  rfl

theorem read_more {next : Scan m C} (more : s.act c (mark g s.closed s.buffer c rest) = .more next) :
    g.read inside a s (c :: rest) = g.read inside a next rest := by
  rw [Grammar.read, phrases, step_eq_act, more]
  rfl

/-- How a character is read in a text that has a tree. -/
theorem of_read_cons {t : Tree m C} (parsed : g.read inside a s (c :: rest) = .ok t) :
    (∃ next, s.act c (mark g s.closed s.buffer c rest) = .more next ∧
        g.read inside a next rest = .ok t) ∨
      ∃ p, s.act c (mark g s.closed s.buffer c rest) = .found p ∧
        (Assembly.Takes inside a p (.done t) ∨
          ∃ b, Assembly.Takes inside a p (.next b) ∧ g.read inside b (after p) rest = .ok t) := by
  cases acted : s.act c (mark g s.closed s.buffer c rest) with
  | more next =>
    rw [read_more acted] at parsed
    exact Or.inl ⟨next, rfl, parsed⟩
  | found p =>
    rw [Grammar.read, phrases, step_eq_act, acted, Assembly.run] at parsed
    refine Or.inr ⟨p, rfl, ?_⟩
    split at parsed
    · next b taken => exact Or.inr ⟨b, Assembly.takes_of_step taken, parsed⟩
    · next tree taken =>
      cases parsed
      exact Or.inl (Assembly.takes_of_step taken)
    · cases parsed

/-- How the end of a text that has a tree is read. -/
theorem of_read_nil {t : Tree m C} (parsed : g.read inside a s [] = .ok t) :
    Assembly.Takes inside a s.finish (.done t) := by
  rw [Grammar.read, phrases, Assembly.run] at parsed
  split at parsed
  · next b taken => exact absurd rfl (Assembly.takes_of_step taken).ne_ending
  · next tree taken =>
    cases parsed
    exact Assembly.takes_of_step taken
  · cases parsed

theorem read_found {p : Phrase m C} (found : s.act c (mark g s.closed s.buffer c rest) = .found p)
    (takes : Assembly.Takes inside a p (.next b)) :
    g.read inside a s (c :: rest) = g.read inside b (after p) rest := by
  rw [Grammar.read, phrases, step_eq_act, found]
  simp only [Assembly.run, Assembly.step_of_takes takes]
  rfl

theorem read_congr {t : Scan m C} {p q : Phrase m C}
    (found : s.act c (mark g s.closed s.buffer c rest) = .found p)
    (found' : t.act c (mark g t.closed t.buffer c rest) = .found q)
    (step : a.step inside p = b.step inside q) (same : after p = after q) :
    g.read inside a s (c :: rest) = g.read inside b t (c :: rest) := by
  rw [Grammar.read, Grammar.read, phrases, phrases, step_eq_act, step_eq_act, found, found']
  simp only [Assembly.run, step, same]

/-- Whether nothing is recognized in a piece of text before `behind`, so that it goes into the buffer
as it is. -/
def Quiet (g : Grammar m C) (closed : Bool) (buffer : List Char) :
    (piece behind : List Char) → Prop
  | [], _ => True
  | c :: piece, behind =>
    mark g closed buffer c (piece ++ behind) = .nothing ∧ Quiet g closed (c :: buffer) piece behind

theorem quiet_append {closed : Bool} {buffer first second behind : List Char} :
    Quiet g closed buffer (first ++ second) behind ↔
      Quiet g closed buffer first (second ++ behind) ∧
        Quiet g closed (first.reverse ++ buffer) second behind := by
  induction first generalizing buffer with
  | nil => simp only [List.nil_append, List.reverse_nil, Quiet, true_and]
  | cons c first ih =>
    have reversed : (c :: first).reverse ++ buffer = first.reverse ++ c :: buffer := by simp
    simp only [List.cons_append, Quiet, ih, reversed, List.append_assoc, and_assoc]

theorem read_quiet {piece behind : List Char} (quiet : Quiet g s.closed s.buffer piece behind) :
    g.read inside a s (piece ++ behind) =
      g.read inside a { s with buffer := piece.reverse ++ s.buffer } behind := by
  induction piece generalizing s with
  | nil => rfl
  | cons c piece ih =>
    obtain ⟨marked, later⟩ := quiet
    rw [List.cons_append, read_nothing marked, ih later]
    simp

/-- Nothing of an operand has been read but, at most, a blank before it. -/
structure Fresh (s : Scan m C) : Prop where
  closed : s.closed = false
  buffer : s.buffer = [] ∨ s.buffer = [' ']

theorem Fresh.blank {s : Scan m C} (fresh : s.Fresh) : ∀ d ∈ s.buffer, isBlank d := by
  rcases fresh.buffer with empty | blank
  · simp [empty]
  · rw [blank]
    exact List.all_eq_true.mp rfl

theorem Fresh.trim {s : Scan m C} (fresh : s.Fresh) : trim s.buffer.reverse = [] := by
  rcases fresh.buffer with empty | blank
  · rw [empty]
    rfl
  · rw [blank]
    rfl

theorem fresh_startingAt (start : Nat) : (startingAt false start : Scan m C).Fresh :=
  ⟨rfl, Or.inl rfl⟩

theorem read_opening (avoids : g.Avoids '(') (fresh : s.Fresh) (groups : List (OpenGroup m C))
    (spine : Spine m C) :
    ∃ position start,
      g.read inside ⟨groups, .awaiting spine⟩ s ('(' :: rest) =
        g.read inside ⟨⟨position, s.unary.reverse, spine⟩ :: groups, .awaiting .hole⟩
          (.startingAt false start) rest := by
  have marked : mark g s.closed s.buffer '(' rest = .bracket .opening := by
    rw [mark_opening avoids, fresh.trim]
    rfl
  have found := congrArg (s.act '(') marked
  refine ⟨_, _, read_found found (.opening spine rfl rfl ?_)⟩
  exact fresh.trim

theorem read_closing (avoids : g.Avoids ')') (group : OpenGroup m C)
    (groups : List (OpenGroup m C)) (t : Tree m C) (start : Nat) :
    ∃ next,
      g.read inside ⟨group :: groups, .complete t⟩ (.startingAt true start) (')' :: rest) =
        g.read inside ⟨groups, .complete (group.close t)⟩ (.startingAt true next) rest := by
  have marked : mark g true [] ')' rest = .bracket .closing := mark_closing avoids true [] rest
  have found := congrArg ((startingAt true start : Scan m C).act ')') marked
  exact ⟨_, read_found found (.closing group groups rfl rfl fun _ => rfl)⟩

theorem mark_blank {closed : Bool} {buffer : List Char} (blankFree : g.Avoids ' ')
    (constants : whole? g.spacing g.constants (candidate closed (' ' :: buffer)) rest = none)
    (unary : whole? g.spacing g.unary (candidate closed (' ' :: buffer)) rest = none) :
    mark g closed buffer ' ' rest = .nothing := by
  have bracket : (bracket? ' ' : Option (Stop m C)).filter
      (fun _ => !isOpenQuote (trim buffer.reverse)) = none := rfl
  unfold mark
  rw [constants, unary, bracket, find?_endsWith_of_avoids blankFree.binary]

theorem read_blank (blankFree : g.Avoids ' ') (closed : s.closed = false) (buffer : s.buffer = []) :
    g.read inside a s (' ' :: rest) = g.read inside a { s with buffer := [' '] } rest := by
  have candidate : candidate s.closed (' ' :: s.buffer) = [] := by
    rw [closed, buffer]
    rfl
  have marked : mark g s.closed s.buffer ' ' rest = .nothing := by
    refine mark_blank blankFree ?_ ?_ <;>
    · rw [candidate]
      exact whole?_nil ..
  rw [read_nothing marked, buffer]

/-- Whether what has been read can be an operand as it stands. -/
structure Ready (building : Building m C) (s : Scan m C) : Prop where
  unquoted : isOpenQuote (trim s.buffer.reverse) = false
  bare : building.closed → trim s.buffer.reverse = []

/-- Where the buffer ends. -/
def stopStart (s : Scan m C) : Nat :=
  s.start + byteLength s.buffer.reverse

theorem read_ready_closing (avoids : g.Avoids ')') {building : Building m C}
    (ready : s.Ready building) (groups : List (OpenGroup m C)) :
    g.read inside ⟨groups, building⟩ s (')' :: rest) =
      g.read inside ⟨groups, .complete (Assembly.treeWith building s.finish)⟩
        (.startingAt true s.stopStart) (')' :: rest) := by
  have marked : mark g s.closed s.buffer ')' rest = .bracket .closing := by
    rw [mark_closing avoids, ready.unquoted]
    rfl
  have settled : mark g true [] ')' rest = .bracket .closing := mark_closing avoids true [] rest
  have found := congrArg (s.act ')') marked
  have found' := congrArg ((startingAt true s.stopStart : Scan m C).act ')') settled
  refine read_congr found found' ?_ rfl
  rw [Assembly.step_closing rfl ready.bare, Assembly.step_closing rfl fun _ => rfl]
  rfl

theorem read_ready_nil {building : Building m C} (ready : s.Ready building)
    (groups : List (OpenGroup m C)) :
    g.read inside ⟨groups, building⟩ s [] =
      g.read inside ⟨groups, .complete (Assembly.treeWith building s.finish)⟩
        (.startingAt true s.stopStart) [] := by
  simp only [Grammar.read, phrases, Assembly.run]
  rw [Assembly.step_ending rfl ready.bare, Assembly.step_ending rfl fun _ => rfl]
  rfl

end Scan

/-- Whether a piece of text, where an operand can stand, is read as this operand before `behind`. -/
def Grammar.ReadsAs (g : Grammar m C) (piece : List Char) (t : Tree m C) (behind : List Char) : Prop :=
  ∀ inside groups spine (s : Scan m C), s.Fresh → ∃ start,
    g.read inside ⟨groups, .awaiting spine⟩ s (piece ++ behind) =
      g.read inside ⟨groups, .complete (spine.fill (Tree.wrap s.unary.reverse t))⟩
        (.startingAt true start) behind

/-- Whether a piece of text, right behind an opening bracket, is read as this tree before `behind`. -/
def Grammar.ReadsWithin (g : Grammar m C) (piece : List Char) (t : Tree m C) (behind : List Char) :
    Prop :=
  ∀ inside groups (start : Nat), ∃ next,
    g.read inside ⟨groups, .awaiting .hole⟩ (.startingAt false start) (piece ++ behind) =
      g.read inside ⟨groups, .complete t⟩ (.startingAt true next) behind

namespace Grammar

variable {g : Grammar m C} {piece behind : List Char} {t : Tree m C}

theorem ReadsAs.within (reads : g.ReadsAs piece t behind) : g.ReadsWithin piece t behind :=
  fun inside groups start => reads inside groups .hole _ (Scan.fresh_startingAt start)

theorem ReadsAs.behind_blank (blankFree : g.Avoids ' ') (reads : g.ReadsAs piece t behind) (inside : Bool)
    (groups : List (OpenGroup m C)) (spine : Spine m C) {s : Scan m C} (closed : s.closed = false)
    (buffer : s.buffer = []) :
    ∃ next, g.read inside ⟨groups, .awaiting spine⟩ s (' ' :: (piece ++ behind)) =
      g.read inside ⟨groups, .complete (spine.fill (Tree.wrap s.unary.reverse t))⟩
        (.startingAt true next) behind := by
  rw [Scan.read_blank blankFree closed buffer]
  exact reads inside groups spine { s with buffer := [' '] } ⟨closed, Or.inr rfl⟩

/-- What is read behind an opening bracket up to the end is also read as a whole text. -/
theorem ReadsWithin.parse (reads : g.ReadsWithin piece t []) : g.parse (String.ofList piece) 0 = .ok t := by
  obtain ⟨next, whole⟩ := reads false [] 0
  rw [List.append_nil] at whole
  rw [parse_zero, String.toList_ofList]
  exact whole

/-- A piece between brackets is a group, whatever follows. -/
theorem ReadsWithin.group (opening : g.Avoids '(') (closing : g.Avoids ')')
    (reads : g.ReadsWithin piece t (')' :: behind)) :
    g.ReadsAs ('(' :: (piece ++ [')'])) (.group t) behind := by
  intro inside groups spine s fresh
  have text : '(' :: (piece ++ [')']) ++ behind = '(' :: (piece ++ ')' :: behind) := by
    simp only [List.cons_append, List.append_assoc, List.nil_append]
  obtain ⟨position, start, opened⟩ := Scan.read_opening opening fresh groups spine
  obtain ⟨next, content⟩ := reads inside (⟨position, s.unary.reverse, spine⟩ :: groups) start
  obtain ⟨final, closed⟩ := Scan.read_closing closing ⟨position, s.unary.reverse, spine⟩ groups t next
  refine ⟨final, ?_⟩
  rw [text, opened, content, closed]
  rfl

end Grammar

end Formula
