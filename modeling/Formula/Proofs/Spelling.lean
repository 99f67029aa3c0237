import Mathlib
import Formula.Proofs.Groups

/-!
# Spelling

The tokens of the unary operators of a phrase, its operand and its stop spell the text that it takes,
with nothing but blanks between them, so the phrases of a text spell all of it.
-/

namespace Formula

variable {m : Type → Type} {C : Type}

/-! ## Blanks -/

theorem toNat_of_isAlphanum {c : Char} (word : c.isAlphanum) : 48 ≤ c.toNat ∧ c.toNat ≤ 122 := by
  have letter : ((65 ≤ c.toNat ∧ c.toNat ≤ 90) ∨ (97 ≤ c.toNat ∧ c.toNat ≤ 122)) ∨
      (48 ≤ c.toNat ∧ c.toNat ≤ 57) := by
    simpa [Char.isAlphanum, Char.isAlpha, Char.isUpper, Char.isLower, Char.isDigit,
      UInt32.le_iff_toNat_le] using word
  omega

theorem isAlphanum_of_isBlank {c : Char} (blank : isBlank c) : c.isAlphanum = false := by
  cases word : c.isAlphanum with
  | false => rfl
  | true =>
    obtain ⟨lower, upper⟩ := toNat_of_isAlphanum word
    simp only [isBlank, Bool.or_eq_true, Bool.and_eq_true, decide_eq_true_eq, beq_iff_eq] at blank
    omega

/-! ## Pieces of a text -/

/-- The pieces stand in the text one behind the other, each behind any number of blanks. -/
inductive Spells : (pieces : List (List Char)) → (text : List Char) → Prop where
  | nil : Spells [] []
  | cons {gap : List Char} (blank : ∀ c ∈ gap, isBlank c) (piece : List Char)
      {pieces : List (List Char)} {text : List Char} (later : Spells pieces text) :
      Spells (piece :: pieces) (gap ++ (piece ++ text))

theorem Spells.append {first second : List (List Char)} {text behind : List Char}
    (spells : Spells first text) (later : Spells second behind) :
    Spells (first ++ second) (text ++ behind) := by
  induction spells with
  | nil => exact later
  | cons blank piece _ ih =>
    rw [List.append_assoc, List.append_assoc]
    exact .cons blank piece ih

theorem spells_singleton {gap : List Char} (blank : ∀ c ∈ gap, isBlank c) (piece : List Char) :
    Spells [piece] (gap ++ piece) := by
  have spells := Spells.cons blank piece .nil
  rwa [List.append_nil] at spells

/-- How a stop is written. -/
def Stop.text : Stop m C → List Char
  | .ending => []
  | .opening => ['(']
  | .closing => [')']
  | .constant entry | .binary entry => entry.op.token.toList

namespace Phrase

def tokens (p : Phrase m C) : List (List Char) :=
  p.unary.map (·.token.toList)

def pieces (p : Phrase m C) : List (List Char) :=
  p.tokens ++ [p.operand, p.stop.text]

/-- Whether a phrase takes just `text`, which starts at `start`, and names the places of its pieces. -/
structure Covers (p : Phrase m C) (start : Nat) (text : List Char) : Prop where
  places : ∃ ahead blanks gap, text = ahead ++ (blanks ++ (p.operand ++ (gap ++ p.stop.text))) ∧
    Spells p.tokens ahead ∧ (∀ c ∈ blanks, isBlank c) ∧ (∀ c ∈ gap, isBlank c) ∧
      p.operandStart = start + byteLength (ahead ++ blanks) ∧
        p.stopStart = start + byteLength (ahead ++ (blanks ++ (p.operand ++ gap)))
  next : p.next = start + byteLength text
  first : p.operand.head?.any isBlank = false
  last : p.operand.getLast?.any isBlank = false

theorem Covers.spells {p : Phrase m C} {start : Nat} {text : List Char} (covers : p.Covers start text) :
    Spells p.pieces text := by
  obtain ⟨ahead, blanks, gap, rfl, unary, blank, between, _⟩ := covers.places
  exact unary.append (.cons blank p.operand (spells_singleton between p.stop.text))

end Phrase

/-! ## Scanning one phrase -/

namespace Scan

/-- The next phrase of a text, and the text behind it. -/
def first (g : Grammar m C) : Scan m C → List Char → Phrase m C × List Char
  | s, [] => (s.finish, [])
  | s, c :: rest =>
    match s.step g c rest with
    | .more s => first g s rest
    | .found p => (p, rest)

theorem text_of_bracket? {c : Char} {stop : Stop m C} (bracket : bracket? c = some stop) :
    stop.text = [c] := by
  rcases eq_of_bracket? bracket with ⟨rfl, rfl⟩ | ⟨rfl, rfl⟩ <;> rfl

/-- The whole text before the buffer has gone into unary operators, and the buffer is no token. -/
structure Passed (g : Grammar m C) (start : Nat) (passed : List Char) (s : Scan m C) (rest : List Char) :
    Prop where
  unary : Spells (s.unary.reverse.map (·.token.toList)) passed
  place : s.start = start + byteLength passed
  unread : ∀ entries ∈ [g.constants, g.unary],
    whole? g.spacing entries (candidate s.closed s.buffer) rest = none

theorem passed_startingAt (g : Grammar m C) (closed : Bool) (start : Nat) (rest : List Char) :
    Passed g start [] (startingAt closed start) rest := by
  have empty : candidate closed [] = [] := by cases closed <;> rfl
  refine ⟨.nil, rfl, fun entries _ => ?_⟩
  rw [startingAt, empty, whole?_nil]

/-- With a blank the buffer does not become a token. -/
theorem whole?_append_blank {spacing : Spacing} {entries : List (Entry m C)} {closed : Bool}
    {buffer rest : List Char} {c : Char} (blank : isBlank c)
    (unread : whole? spacing entries (candidate closed buffer) (c :: rest) = none) :
    whole? spacing entries (candidate closed (c :: buffer)) rest = none := by
  have same : candidate closed (c :: buffer) = candidate closed buffer := by
    cases closed with
    | true => rfl
    | false => simp only [candidate, List.reverse_cons, trim_append_blank blank]
  rw [same]
  unfold whole? at unread ⊢
  split
  · rfl
  · next some =>
    rw [if_neg some, List.find?_eq_none] at unread
    rw [List.find?_eq_none]
    intro entry member fits
    refine unread entry member ?_
    rw [Bool.and_eq_true] at fits ⊢
    refine ⟨fits.1, ?_⟩
    simp only [List.head?_cons, Option.any_some, isAlphanum_of_isBlank blank, Bool.and_false,
      Bool.not_false]

section

variable {g : Grammar m C} {start : Nat} {passed rest : List Char} {s next : Scan m C} {c : Char}
  {p : Phrase m C}

theorem Passed.solid (sound : Passed g start passed s (c :: rest)) {entries : List (Entry m C)}
    (table : entries ∈ [g.constants, g.unary]) {entry : Entry m C}
    (found : whole? g.spacing entries (candidate s.closed (c :: s.buffer)) rest = some entry) :
    isBlank c = false := by
  cases blank : isBlank c with
  | false => rfl
  | true =>
    have unread := whole?_append_blank blank (sound.unread entries table)
    rw [found] at unread
    cases unread

/-- A token is all of the buffer but the blanks before it. -/
theorem Passed.whole (sound : Passed g start passed s (c :: rest)) {entries : List (Entry m C)}
    (table : entries ∈ [g.constants, g.unary]) {entry : Entry m C}
    (found : whole? g.spacing entries (candidate s.closed (c :: s.buffer)) rest = some entry) :
    (c :: s.buffer).reverse.takeWhile isBlank ++ entry.token = s.buffer.reverse ++ [c] := by
  obtain ⟨_, token, some⟩ := whole?_eq_some found
  have front : candidate s.closed (c :: s.buffer) = trim (s.buffer.reverse ++ [c]) := by
    cases closed : s.closed with
    | true =>
      rw [closed] at some
      exact absurd rfl some
    | false => rw [← List.reverse_cons]; rfl
  rw [token, front, List.reverse_cons]
  exact takeWhile_append_trim (sound.solid table found) s.buffer.reverse

end

section

variable {v : Vocabulary m C} {spacing : Spacing} {start : Nat} {passed rest : List Char}
  {s next : Scan m C} {c : Char} {p : Phrase m C}

theorem Passed.more (sound : Passed (.ofVocabulary v spacing) start passed s (c :: rest))
    (more : s.act c (mark (.ofVocabulary v spacing) s.closed s.buffer c rest) = .more next) :
    ∃ passed', passed' ++ next.buffer.reverse = passed ++ (s.buffer.reverse ++ [c]) ∧
      Passed (.ofVocabulary v spacing) start passed' next rest := by
  cases moves_of_more more with
  | unary entry marked =>
    have found := whole?_of_mark_unary marked
    have split := sound.whole (by simp) found
    have token := Entry.token_of_mem_table (whole?_eq_some found).1
    have blank : ∀ d ∈ (c :: s.buffer).reverse.takeWhile isBlank, isBlank d :=
      fun d member => List.mem_takeWhile_imp member
    refine ⟨passed ++ (s.buffer.reverse ++ [c]), List.append_nil _, ?_, ?_, fun entries _ => ?_⟩
    · rw [List.reverse_cons, List.map_append, ← split, token]
      exact sound.unary.append (spells_singleton blank _)
    · rw [sound.place, byteLength_append, ← List.reverse_cons, byteLength_reverse, Nat.add_assoc]
    · cases s.closed <;> exact whole?_nil ..
  | nothing marked =>
    obtain ⟨constants, unary, _⟩ := mark_nothing marked
    refine ⟨passed, by rw [← List.reverse_cons], sound.unary, sound.place, fun entries table => ?_⟩
    rcases List.mem_pair.mp table with rfl | rfl
    · exact constants
    · exact unary

theorem Passed.phrase (sound : Passed (.ofVocabulary v spacing) start passed s rest) (left : List Char)
    (stop : Stop m C) :
    (s.phrase left stop (byteLength stop.text)).Covers start (passed ++ (left ++ stop.text)) := by
  obtain ⟨gap, split, between⟩ := exists_trim_behind left
  refine ⟨⟨passed, left.takeWhile isBlank, gap, ?_, sound.unary, ?_, between, ?_, ?_⟩, ?_,
    head?_trim left, getLast?_trim left⟩
  · have around : left ++ stop.text = left.takeWhile isBlank ++ (trim left ++ (gap ++ stop.text)) := by
      conv_lhs => rw [split]
      simp only [List.append_assoc]
    rw [around]
    rfl
  · exact fun c member => List.mem_takeWhile_imp member
  · rw [byteLength_append, ← Nat.add_assoc, ← sound.place]
    rfl
  · have before : left.takeWhile isBlank ++ ((s.phrase left stop (byteLength stop.text)).operand ++ gap) =
        left := split.symm
    rw [before, byteLength_append, ← Nat.add_assoc, ← sound.place]
    rfl
  · rw [byteLength_append, byteLength_append, ← Nat.add_assoc, ← Nat.add_assoc, ← sound.place]
    rfl

theorem Passed.found (sound : Passed (.ofVocabulary v spacing) start passed s (c :: rest))
    (found : s.act c (mark (.ofVocabulary v spacing) s.closed s.buffer c rest) = .found p) :
    p.Covers start (passed ++ (s.buffer.reverse ++ [c])) := by
  cases stops_of_found found with
  | constant entry marked =>
    have whole := whole?_of_mark_constant marked
    have split := sound.whole (by simp) whole
    rw [Entry.token_of_mem_table (whole?_eq_some whole).1] at split
    have next : s.start + byteLength (c :: s.buffer) =
        s.start + byteLength ((c :: s.buffer).reverse.takeWhile isBlank) +
          byteLength (Stop.constant entry).text := by
      rw [Nat.add_assoc, ← byteLength_append, Stop.text, split, ← List.reverse_cons,
        byteLength_reverse]
    rw [next, ← split]
    exact sound.phrase _ (.constant entry)
  | bracket stop written =>
    have text : stop.text = [c] := text_of_bracket? written
    have size : c.utf8Size = byteLength stop.text := by
      rw [text]
      rfl
    rw [size, ← text]
    exact sound.phrase s.buffer.reverse stop
  | binary entry left member split =>
    rw [split, Entry.token_of_mem_table member]
    exact sound.phrase left.reverse (.binary entry)

/-- Whatever is before the stop goes into one phrase. The induction is on the text: the buffer grows or
goes into a unary operator, and both keep what is passed. -/
theorem Passed.first {text : List Char} (sound : Passed (.ofVocabulary v spacing) start passed s text) :
    ∃ taken, passed ++ (s.buffer.reverse ++ text) =
        taken ++ (s.first (.ofVocabulary v spacing) text).2 ∧
      (s.first (.ofVocabulary v spacing) text).1.Covers start taken := by
  induction text generalizing s passed with
  | nil => exact ⟨passed ++ (s.buffer.reverse ++ []), (List.append_nil _).symm, sound.phrase _ .ending⟩
  | cons c rest ih =>
    rw [Scan.first, step_eq_act]
    split
    · next next more =>
      obtain ⟨passed', split, sound⟩ := sound.more more
      obtain ⟨taken, whole, covers⟩ := ih sound
      refine ⟨taken, ?_, covers⟩
      rw [← whole, ← List.append_assoc passed', split]
      simp only [List.append_assoc, List.singleton_append]
    · next p found =>
      refine ⟨passed ++ (s.buffer.reverse ++ [c]), ?_, sound.found found⟩
      simp only [List.append_assoc, List.singleton_append]

end

/-- The phrases of a text are its first phrase and those behind it. -/
theorem phrases_eq_first (g : Grammar m C) (s : Scan m C) (text : List Char) :
    ((s.first g text).1.stop = .ending ∧ (s.first g text).2 = [] ∧
        s.phrases g text = [(s.first g text).1]) ∨
      ((s.first g text).1.stop ≠ .ending ∧ (s.first g text).2.length < text.length ∧
        s.phrases g text = (s.first g text).1 :: (after (s.first g text).1).phrases g (s.first g text).2) := by
  induction text generalizing s with
  | nil => exact Or.inl ⟨rfl, rfl, rfl⟩
  | cons c rest ih =>
    cases outcome : s.step g c rest with
    | more next =>
      simp only [first, phrases, outcome]
      rcases ih next with ending | ⟨stop, shorter, whole⟩
      · exact Or.inl ending
      · exact Or.inr ⟨stop, Nat.lt_succ_of_lt shorter, whole⟩
    | found p =>
      simp only [first, phrases, outcome]
      exact Or.inr ⟨(step_found outcome).2, Nat.lt_succ_self _, trivial⟩

end Scan

/-! ## Scanning a text -/

namespace Grammar

/-- The phrase that starts at a position of a text. -/
def phraseAt (g : Grammar m C) (text : String) (closed : Bool) (position : Nat) : Phrase m C :=
  ((Scan.startingAt closed position).first g ((dropBytes? position text.toList).getD [])).1

/-- Phrases of a text up to its end, each where the one before has left off. -/
inductive Reads (g : Grammar m C) (text : String) : Bool → Nat → List (Phrase m C) → Prop where
  | last {closed : Bool} {position : Nat} (stop : (g.phraseAt text closed position).stop = .ending) :
      Reads g text closed position [g.phraseAt text closed position]
  | next {closed : Bool} {position : Nat} (stop : (g.phraseAt text closed position).stop ≠ .ending)
      {later : List (Phrase m C)}
      (reads : Reads g text (g.phraseAt text closed position).stop.closes
        (g.phraseAt text closed position).next later) :
      Reads g text closed position (g.phraseAt text closed position :: later)

theorem phraseAt_eq {g : Grammar m C} {text : String} {before rest : List Char}
    (split : text.toList = before ++ rest) (closed : Bool) :
    g.phraseAt text closed (byteLength before) =
      ((Scan.startingAt closed (byteLength before)).first g rest).1 := by
  rw [phraseAt, split, dropBytes?_append]
  rfl

section

variable {v : Vocabulary m C} {spacing : Spacing} {text : String} {before rest : List Char}

/-- Where a phrase starts, it takes a part of the text, and all of it if it ends the text. -/
theorem phraseAt_covers (v : Vocabulary m C) (spacing : Spacing) (split : text.toList = before ++ rest)
    (closed : Bool) :
    ∃ taken behind, rest = taken ++ behind ∧
      ((ofVocabulary v spacing).phraseAt text closed (byteLength before)).Covers (byteLength before)
        taken ∧
      (((ofVocabulary v spacing).phraseAt text closed (byteLength before)).stop = .ending →
        behind = []) := by
  rw [phraseAt_eq split]
  obtain ⟨taken, divided, covers⟩ :=
    (Scan.passed_startingAt (.ofVocabulary v spacing) closed (byteLength before) rest).first
  refine ⟨taken, _, divided, covers, fun ending => ?_⟩
  rcases Scan.phrases_eq_first (.ofVocabulary v spacing) (.startingAt closed (byteLength before)) rest with
    ⟨_, last, _⟩ | ⟨other, _⟩
  · exact last
  · exact absurd ending other

/-- The induction is on how much of the text is left. -/
theorem reads_phrases (split : text.toList = before ++ rest) (closed : Bool) :
    Reads (.ofVocabulary v spacing) text closed (byteLength before)
      ((Scan.startingAt closed (byteLength before)).phrases (.ofVocabulary v spacing) rest) := by
  induction size : rest.length using Nat.strong_induction_on generalizing before rest closed with
  | _ n ih =>
  have here := phraseAt_eq (g := .ofVocabulary v spacing) split closed
  rcases Scan.phrases_eq_first (.ofVocabulary v spacing) (.startingAt closed (byteLength before)) rest with
    ⟨stop, _, whole⟩ | ⟨stop, shorter, whole⟩
  · rw [whole, ← here]
    exact .last (here ▸ stop)
  · obtain ⟨taken, divided, covers⟩ :=
      (Scan.passed_startingAt (.ofVocabulary v spacing) closed (byteLength before) rest).first
    have next : ((ofVocabulary v spacing).phraseAt text closed (byteLength before)).next =
        byteLength (before ++ taken) := by
      rw [here, covers.next, byteLength_append]
    have later := split
    rw [show rest = taken ++ _ from divided, ← List.append_assoc] at later
    rw [whole, ← here, Scan.after_eq]
    refine .next (here ▸ stop) ?_
    rw [next]
    exact ih _ (size ▸ shorter) later _ rfl

theorem Reads.spells {closed : Bool} {ps : List (Phrase m C)}
    (reads : Reads (.ofVocabulary v spacing) text closed (byteLength before) ps)
    (split : text.toList = before ++ rest) : Spells (ps.flatMap Phrase.pieces) rest := by
  generalize place : byteLength before = position at reads
  induction reads generalizing before rest with
  | last ending =>
    subst place
    obtain ⟨taken, behind, rfl, covers, whole⟩ := phraseAt_covers v spacing split _
    rw [whole ending]
    exact covers.spells.append .nil
  | next _ _ ih =>
    subst place
    obtain ⟨taken, behind, rfl, covers, _⟩ := phraseAt_covers v spacing split _
    have next := covers.next
    rw [← byteLength_append] at next
    rw [← List.append_assoc] at split
    exact covers.spells.append (ih split next.symm)

/-- A phrase takes the text from where it starts to where the next one does: the tokens of its unary
operators, its operand and its stop spell this text, and its positions are those of its operand and of
its stop. The phrases that a text is compiled from spell all of it. -/
theorem phrases_spell (v : Vocabulary m C) (spacing : Spacing) (text : String) :
    (∀ before rest, text.toList = before ++ rest → ∀ closed, ∃ taken behind, rest = taken ++ behind ∧
      ((ofVocabulary v spacing).phraseAt text closed (byteLength before)).Covers (byteLength before)
        taken ∧
      Spells ((ofVocabulary v spacing).phraseAt text closed (byteLength before)).pieces taken) ∧
    ∀ t, (ofVocabulary v spacing).parse text 0 = .ok t →
      ∃ ps, Reads (ofVocabulary v spacing) text false 0 ps ∧
        Assembly.Run false .empty ps t [] ∧ Spells (ps.flatMap Phrase.pieces) text.toList := by
  constructor
  · intro before rest split closed
    obtain ⟨taken, behind, divided, covers, _⟩ := phraseAt_covers v spacing split closed
    exact ⟨taken, behind, divided, covers, covers.spells⟩
  · intro t parsed
    rw [parse_zero] at parsed
    obtain ⟨behind, run⟩ := Assembly.exists_run parsed
    have whole := run.whole (Scan.phrases_row _ _ text.toList fun _ => rfl)
    subst whole
    have split : text.toList = [] ++ text.toList := rfl
    have reads : Reads (ofVocabulary v spacing) text false 0 _ := reads_phrases split false
    exact ⟨_, reads, run, Reads.spells reads split⟩

end

/-- The first phrase starts behind a character of two bytes, the second has two unary operators. -/
theorem phrases_spell_prefixes :
    (∃ taken behind, " * ! -15 +(true )".toList = taken ++ behind ∧
      (hostless.phraseAt "é * ! -15 +(true )" true 2).Covers 2 taken ∧ Spells [[], ['*']] taken) ∧
    (∃ taken behind, " ! -15 +(true )".toList = taken ++ behind ∧
      (hostless.phraseAt "é * ! -15 +(true )" false 4).Covers 4 taken ∧
      Spells [['!'], ['-'], "15".toList, ['+']] taken) ∧
    ∃ t ps, hostless.parse "é * ! -15 +(true )" 0 = .ok t ∧
      hostless.Reads "é * ! -15 +(true )" false 0 ps ∧
        Spells (ps.flatMap Phrase.pieces) "é * ! -15 +(true )".toList := by
  have spell := phrases_spell (.builtin ⟨fun _ _ => .absent⟩) .wordsOnly "é * ! -15 +(true )"
    (m := Id) (C := Unit)
  refine ⟨?_, ?_, ?_⟩
  · exact spell.1 ['é'] " * ! -15 +(true )".toList rfl true
  · exact spell.1 "é *".toList " ! -15 +(true )".toList rfl false
  · obtain ⟨ps, reads, _, whole⟩ := spell.2 _ rfl
    exact ⟨_, ps, rfl, reads, whole⟩

end Grammar

end Formula
