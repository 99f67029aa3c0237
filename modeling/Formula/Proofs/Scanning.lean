import Formula.Phrase

/-!
# Scanning

What a scan recognizes at a character depends on the buffer, on what follows, and on whether an
operand stands before; positions and the unary operators read so far play no part.
-/

namespace Formula

variable {m : Type → Type} {C : Type}

/-- Whether what ends a phrase is itself an operand. -/
def Stop.closes : Stop m C → Bool
  | .closing | .constant _ => true
  | .opening | .binary _ | .ending => false

theorem Scan.after_eq (p : Phrase m C) : Scan.after p = .startingAt p.stop.closes p.next := by
  unfold Scan.after
  cases p.stop <;> rfl

/-- What the buffer is, or ends with, when a character has been added to it. -/
inductive Mark (m : Type → Type) (C : Type) where
  | constant (entry : Entry m C)
  | unary (entry : Entry m C)
  | bracket (stop : Stop m C)
  | binary (entry : Entry m C)
  | nothing

namespace Scan

/-- The text that can be a constant or a unary token. Behind an operand there is none. -/
def candidate (closed : Bool) (reversed : List Char) : List Char :=
  if closed then [] else trim reversed.reverse

def mark (g : Grammar m C) (closed : Bool) (buffer : List Char) (c : Char) (rest : List Char) :
    Mark m C :=
  match whole? g.spacing g.constants (candidate closed (c :: buffer)) rest with
  | some entry => .constant entry
  | none =>
  match whole? g.spacing g.unary (candidate closed (c :: buffer)) rest with
  | some entry => .unary entry
  | none =>
  match (bracket? c).filter fun _ => !isOpenQuote (trim buffer.reverse) with
  | some stop => .bracket stop
  | none =>
  match g.binary.find? (endsWith g.spacing closed (c :: buffer) rest) with
  | some entry => .binary entry
  | none => .nothing

/-- How a scan goes on from what it has recognized. -/
def act (s : Scan m C) (c : Char) : Mark m C → Outcome m C
  | .constant entry =>
    .found { s.phrase ((c :: s.buffer).reverse.takeWhile isBlank) (.constant entry) 0 with
      next := s.start + byteLength (c :: s.buffer) }
  | .unary entry => .more ⟨s.closed, entry.op :: s.unary, s.start + byteLength (c :: s.buffer), []⟩
  | .bracket stop => .found (s.phrase s.buffer.reverse stop c.utf8Size)
  | .binary entry =>
    .found (s.phrase ((c :: s.buffer).drop entry.token.length).reverse (.binary entry)
      (byteLength entry.token))
  | .nothing => .more { s with buffer := c :: s.buffer }

theorem step_eq_act (g : Grammar m C) (s : Scan m C) (c : Char) (rest : List Char) :
    s.step g c rest = s.act c (mark g s.closed s.buffer c rest) := by
  unfold step mark candidate
  dsimp only
  generalize whole? g.spacing g.constants _ rest = constant
  generalize whole? g.spacing g.unary _ rest = unary
  generalize (bracket? c).filter _ = bracket
  generalize g.binary.find? _ = binary
  cases constant with
  | some entry => rfl
  | none =>
  cases unary with
  | some entry => rfl
  | none =>
  cases bracket with
  | some stop => rfl
  | none => cases binary <;> rfl

theorem whole?_nil (spacing : Spacing) (entries : List (Entry m C)) (rest : List Char) :
    whole? spacing entries [] rest = none := by
  simp only [whole?, if_true]

/-- Behind an operand only brackets and binary operators are recognized. -/
theorem mark_closed (g : Grammar m C) (buffer : List Char) (c : Char) (rest : List Char) (entry : Entry m C) :
    mark g true buffer c rest ≠ .constant entry ∧ mark g true buffer c rest ≠ .unary entry := by
  simp only [mark, candidate, if_true, whole?_nil]
  split
  · exact ⟨nofun, nofun⟩
  split <;> exact ⟨nofun, nofun⟩

theorem mark_bracket {g : Grammar m C} {closed : Bool} {buffer rest : List Char} {c : Char}
    {stop : Stop m C} (marked : mark g closed buffer c rest = .bracket stop) :
    bracket? c = some stop ∧ isOpenQuote (trim buffer.reverse) = false := by
  unfold mark at marked
  split at marked
  · cases marked
  split at marked
  · cases marked
  split at marked
  · next stop bracket =>
    cases marked
    simpa only [Option.filter_eq_some_iff, Bool.not_eq_true'] using bracket
  split at marked <;> cases marked

theorem whole?_eq_some {spacing : Spacing} {entries : List (Entry m C)} {text rest : List Char}
    {entry : Entry m C} (found : whole? spacing entries text rest = some entry) :
    entry ∈ entries ∧ entry.token = text ∧ text ≠ [] := by
  unfold whole? at found
  split at found
  · cases found
  · next some =>
    have test := List.find?_some found
    simp only [Bool.and_eq_true, beq_iff_eq] at test
    exact ⟨List.mem_of_find?_eq_some found, test.1, some⟩

section

variable {g : Grammar m C} {closed : Bool} {buffer rest : List Char} {c : Char} {entry : Entry m C}

theorem whole?_of_mark_constant (marked : mark g closed buffer c rest = .constant entry) :
    whole? g.spacing g.constants (candidate closed (c :: buffer)) rest = some entry := by
  unfold mark at marked
  split at marked
  · next found =>
    cases marked
    exact found
  split at marked
  · cases marked
  split at marked
  · cases marked
  split at marked <;> cases marked

theorem whole?_of_mark_unary (marked : mark g closed buffer c rest = .unary entry) :
    whole? g.spacing g.unary (candidate closed (c :: buffer)) rest = some entry := by
  unfold mark at marked
  split at marked
  · cases marked
  split at marked
  · next found =>
    cases marked
    exact found
  split at marked
  · cases marked
  split at marked <;> cases marked

theorem mark_constant (marked : mark g closed buffer c rest = .constant entry) :
    entry ∈ g.constants ∧ entry.token = candidate closed (c :: buffer) ∧ closed = false ∧
      entry.token ≠ [] := by
  have front : closed = false := by
    cases closed with
    | true => exact absurd marked (mark_closed g buffer c rest entry).1
    | false => rfl
  obtain ⟨member, token, some⟩ := whole?_eq_some (whole?_of_mark_constant marked)
  exact ⟨member, token, front, token ▸ some⟩

theorem mark_unary (marked : mark g closed buffer c rest = .unary entry) :
    entry ∈ g.unary ∧ entry.token ≠ [] := by
  obtain ⟨member, token, some⟩ := whole?_eq_some (whole?_of_mark_unary marked)
  exact ⟨member, token ▸ some⟩

theorem mark_binary (marked : mark g closed buffer c rest = .binary entry) :
    entry ∈ g.binary ∧ endsWith g.spacing closed (c :: buffer) rest entry := by
  unfold mark at marked
  split at marked
  · cases marked
  split at marked
  · cases marked
  split at marked
  · cases marked
  split at marked
  · next found =>
    cases marked
    exact ⟨List.mem_of_find?_eq_some found, List.find?_some found⟩
  · cases marked

/-- Where nothing is recognized, each test has failed. -/
theorem mark_nothing (marked : mark g closed buffer c rest = .nothing) :
    whole? g.spacing g.constants (candidate closed (c :: buffer)) rest = none ∧
      whole? g.spacing g.unary (candidate closed (c :: buffer)) rest = none ∧
        g.binary.find? (endsWith g.spacing closed (c :: buffer) rest) = none := by
  unfold mark at marked
  split at marked
  · cases marked
  next constant =>
  split at marked
  · cases marked
  next unary =>
  split at marked
  · cases marked
  split at marked
  · cases marked
  next binary =>
  exact ⟨constant, unary, binary⟩

end

theorem bracket?_eq_none {c : Char} (opening : c ≠ '(') (closing : c ≠ ')') :
    (bracket? c : Option (Stop m C)) = none := by
  unfold bracket?
  split
  · exact absurd rfl opening
  · exact absurd rfl closing
  · rfl

theorem eq_of_bracket? {c : Char} {stop : Stop m C} (bracket : bracket? c = some stop) :
    c = '(' ∧ stop = .opening ∨ c = ')' ∧ stop = .closing := by
  unfold bracket? at bracket
  split at bracket <;> cases bracket
  · exact Or.inl ⟨rfl, rfl⟩
  · exact Or.inr ⟨rfl, rfl⟩

theorem bracket?_ne_ending {c : Char} {stop : Stop m C} (bracket : bracket? c = some stop) :
    stop ≠ .ending := by
  rcases eq_of_bracket? bracket with ⟨_, rfl⟩ | ⟨_, rfl⟩ <;> exact nofun

theorem bracket?_ne_constant {c : Char} {stop : Stop m C} (bracket : bracket? c = some stop)
    (entry : Entry m C) : stop ≠ .constant entry := by
  rcases eq_of_bracket? bracket with ⟨_, rfl⟩ | ⟨_, rfl⟩ <;> exact nofun

/-- Whether an entry is the binary operator that ends the buffer behind `left`, which is given last
character first. -/
structure Ends (spacing : Spacing) (closed : Bool) (left rest : List Char) (entry : Entry m C) :
    Prop where
  some : entry.token ≠ []
  operand : closed ∨ trim left.reverse ≠ []
  unquoted : isOpenQuote (trim left.reverse) = false
  longerEnding : ∀ longer ∈ entry.longerEnding, ¬longer.reverse <+: entry.token.reverse ++ left
  longerStarting : ∀ longer ∈ entry.longerStarting, ¬longer <+: entry.token ++ rest
  separated : spacing.separates entry.word → rest.head?.any isBlank ∧ left.head?.any isBlank

theorem endsWith_iff {spacing : Spacing} {closed : Bool} {reversed rest : List Char}
    {entry : Entry m C} :
    endsWith spacing closed reversed rest entry ↔
      ∃ left, reversed = entry.token.reverse ++ left ∧ Ends spacing closed left rest entry := by
  have split : ∀ left, (entry.token.reverse ++ left).drop entry.token.length = left := by simp
  have separated : ∀ a b c : Bool,
      (a = false ∨ b = true ∧ c = true) ↔ (a = true → b = true ∧ c = true) := by decide
  simp only [endsWith, Bool.and_eq_true, Bool.or_eq_true, Bool.not_eq_true', List.isEmpty_eq_false_iff,
    List.isPrefixOf_iff_prefix, List.any_eq_false, separated]
  constructor
  · rintro ⟨⟨some, left, rfl⟩, ⟨⟨⟨operand, unquoted⟩, ending⟩, starting⟩, separated⟩
    rw [split] at operand unquoted separated
    exact ⟨left, rfl, some, operand, unquoted, ending, starting, separated⟩
  · rintro ⟨left, rfl, some, operand, unquoted, ending, starting, separated⟩
    rw [split]
    exact ⟨⟨some, left, rfl⟩, ⟨⟨⟨operand, unquoted⟩, ending⟩, starting⟩, separated⟩

/-- The text behind which the token of an operator ends the buffer. -/
theorem exists_left_of_endsWith {spacing : Spacing} {closed : Bool} {reversed rest : List Char}
    {entry : Entry m C} (ends : endsWith spacing closed reversed rest entry) :
    ∃ left, reversed.reverse = left.reverse ++ entry.token ∧
      reversed.drop entry.token.length = left ∧ Ends spacing closed left rest entry := by
  obtain ⟨left, split, ends⟩ := endsWith_iff.mp ends
  refine ⟨left, ?_, ?_, ends⟩
  · rw [split, List.reverse_append, List.reverse_reverse]
  · rw [split, List.drop_left' List.length_reverse]

/-! ## Steps -/

/-- How a scan reads on: a unary operator takes the buffer, anything else stays in it. -/
inductive Moves (g : Grammar m C) (s : Scan m C) (c : Char) (rest : List Char) : Scan m C → Prop where
  | unary (entry : Entry m C) (marked : mark g s.closed s.buffer c rest = .unary entry) :
    Moves g s c rest ⟨s.closed, entry.op :: s.unary, s.start + byteLength (c :: s.buffer), []⟩
  | nothing (marked : mark g s.closed s.buffer c rest = .nothing) :
    Moves g s c rest { s with buffer := c :: s.buffer }

/-- How a scan stops at a phrase. A binary operator takes its token from the end of the buffer. -/
inductive Stops (g : Grammar m C) (s : Scan m C) (c : Char) (rest : List Char) : Phrase m C → Prop where
  | constant (entry : Entry m C) (marked : mark g s.closed s.buffer c rest = .constant entry) :
    Stops g s c rest
      { s.phrase ((c :: s.buffer).reverse.takeWhile isBlank) (.constant entry) 0 with
        next := s.start + byteLength (c :: s.buffer) }
  | bracket (stop : Stop m C) (written : bracket? c = some stop)
      (unquoted : isOpenQuote (trim s.buffer.reverse) = false) :
    Stops g s c rest (s.phrase s.buffer.reverse stop c.utf8Size)
  | binary (entry : Entry m C) (left : List Char) (member : entry ∈ g.binary)
      (split : s.buffer.reverse ++ [c] = left.reverse ++ entry.token)
      (ends : Ends g.spacing s.closed left rest entry) :
    Stops g s c rest (s.phrase left.reverse (.binary entry) (byteLength entry.token))

section

variable {g : Grammar m C} {s next : Scan m C} {c : Char} {rest : List Char} {p : Phrase m C}

theorem moves_of_more (more : s.act c (mark g s.closed s.buffer c rest) = .more next) :
    Moves g s c rest next := by
  cases marked : mark g s.closed s.buffer c rest with
  | unary entry =>
    rw [marked] at more
    cases more
    exact .unary entry marked
  | nothing =>
    rw [marked] at more
    cases more
    exact .nothing marked
  | constant | bracket | binary =>
    rw [marked] at more
    cases more

theorem stops_of_found (found : s.act c (mark g s.closed s.buffer c rest) = .found p) :
    Stops g s c rest p := by
  cases marked : mark g s.closed s.buffer c rest with
  | constant entry =>
    rw [marked] at found
    cases found
    exact .constant entry marked
  | bracket stop =>
    rw [marked] at found
    cases found
    obtain ⟨written, unquoted⟩ := mark_bracket marked
    exact .bracket stop written unquoted
  | binary entry =>
    rw [marked] at found
    cases found
    obtain ⟨member, ends⟩ := mark_binary marked
    obtain ⟨left, split, kept, ends⟩ := exists_left_of_endsWith ends
    rw [List.reverse_cons] at split
    rw [kept]
    exact .binary entry left member split ends
  | unary | nothing =>
    rw [marked] at found
    cases found

theorem step_more (more : s.step g c rest = .more next) :
    next.closed = s.closed ∧ (s.closed → next.unary = s.unary) := by
  rw [step_eq_act] at more
  cases moves_of_more more with
  | unary entry marked =>
    refine ⟨rfl, fun closed => ?_⟩
    rw [closed] at marked
    exact absurd marked (mark_closed g s.buffer c rest entry).2
  | nothing => exact ⟨rfl, fun _ => rfl⟩

theorem step_found (found : s.step g c rest = .found p) :
    p.unary = s.unary.reverse ∧ p.stop ≠ .ending := by
  rw [step_eq_act] at found
  cases stops_of_found found with
  | bracket stop written => exact ⟨rfl, bracket?_ne_ending written⟩
  | constant | binary => exact ⟨rfl, nofun⟩

theorem closed_of_constant (found : s.step g c rest = .found p) {entry : Entry m C}
    (constant : p.stop = .constant entry) : s.closed = false := by
  rw [step_eq_act] at found
  cases stops_of_found found with
  | constant other marked => exact (mark_constant marked).2.2.1
  | bracket stop written => exact absurd constant (bracket?_ne_constant written entry)
  | binary => cases constant

end

end Scan

end Formula
